import Mathlib.Data.Finset.Union
import Munch.Proofs.Nfa.Closure

/-!
# Matching a word byte by byte

`Nfa.accepts?` keeps the states that a word leads to as a list and reads the word to its
end. Here they are kept as a set, as the search with a stack keeps them: the set is closed
in place, in whatever order its members are stacked (`Nfa.Closes`), and the edges of its
members are followed (`Nfa.follow?`). The match ends with the answer no as soon as these
lead nowhere, however much of the word is left (`Nfa.Reads`).

From the empty list nothing is reached (`foldlM_of_nil`), so ending early changes no
answer: `matches_iff` has the two agree on every arena. Where one of them visits a missing
state, the other does so too, and neither answers.
-/

namespace Munch.Nfa

open Search

/-- Closing the first set in place makes it the second one, in whatever order its members
are stacked. -/
def Closes (n : Nfa) (set closed : Finset Nat) : Prop :=
  ∀ listing : List Nat, listing.Nodup → listing.toFinset = set →
    ∃ taken, n.Exhausts ⟨set, listing⟩ taken closed

/-- Where the edges labelled `b` lead from the states of a set, all of which are visited. -/
def follow? (n : Nfa) (current : Finset Nat) (b : UInt8) : Option (Finset Nat) :=
  if ∀ q ∈ current, n.has q = true then
    some (current.biUnion fun q => (n.targets q b).toFinset)
  else none

/-- From a closed set on, the rest of a word is read with this answer. -/
inductive Reads (n : Nfa) (accept : Nat) : Finset Nat → List UInt8 → Bool → Prop
  | done {current : Finset Nat} : Reads n accept current [] (decide (accept ∈ current))
  /-- No edge is left, and the rest of the word is not looked at. -/
  | stuck {current : Finset Nat} {b : UInt8} {w : List UInt8} :
    n.follow? current b = some ∅ → Reads n accept current (b :: w) false
  | step {current next closed : Finset Nat} {b : UInt8} {w : List UInt8} {answer : Bool} :
    n.follow? current b = some next → next ≠ ∅ → n.Closes next closed →
    Reads n accept closed w answer → Reads n accept current (b :: w) answer

/-- Matching the word against the fragment ends with this answer. -/
def Matches (n : Nfa) (f : Fragment) (w : List UInt8) (answer : Bool) : Prop :=
  ∃ first, n.Closes {f.start} first ∧ n.Reads f.accept first w answer

variable {n : Nfa} {seeds ids : List Nat} {closed : Finset Nat} {w : List UInt8} {answer : Bool}

/-! ## Sets and lists -/

/-- Closing in place ends iff the closure is answered, with the states of the answer. -/
theorem closes_iff : n.Closes seeds.toFinset closed ↔
    ∃ ids, n.closure? seeds = some ids ∧ closed = ids.toFinset := by
  constructor
  · intro h
    have hlisting : seeds.dedup.toFinset = seeds.toFinset := by
      ext q
      rw [List.mem_toFinset, List.mem_toFinset, List.mem_dedup]
    exact (startsFrom_listing seeds.nodup_dedup hlisting).exhausts_iff.mp
      (h _ seeds.nodup_dedup hlisting)
  · exact fun h listing hnodup hlisting => (startsFrom_listing hnodup hlisting).exhausts_iff.mpr h

theorem follow?_toFinset (b : UInt8) :
    n.follow? ids.toFinset b = (n.move? ids b).map List.toFinset := by
  have hvisits : (∀ q ∈ ids.toFinset, n.has q = true) ↔ ids.all n.has = true := by
    rw [List.all_eq_true]
    simp only [List.mem_toFinset]
  have hmove : (ids.toFinset.biUnion fun q => (n.targets q b).toFinset) =
      (n.move ids b).toFinset := by
    ext q
    simp only [Finset.mem_biUnion, List.mem_toFinset, mem_targets, mem_move]
  unfold follow? move?
  by_cases hall : ids.all n.has = true
  · rw [if_pos (hvisits.mpr hall), if_pos hall, hmove]
    rfl
  · rw [if_neg (mt hvisits.mp hall), if_neg hall]
    rfl

/-! ## Reading on -/

theorem closure?_nil (n : Nfa) : n.closure? [] = some [] := by
  refine closure?_eq_some_iff.mpr ⟨fun r hr => absurd hr List.not_mem_nil, ?_⟩
  rw [List.eq_nil_iff_forall_not_mem]
  intro q hq
  obtain ⟨_, r, hr, _⟩ := mem_closure.mp hq
  exact List.not_mem_nil hr

/-- No word leads anywhere from nowhere. -/
theorem foldlM_of_nil (n : Nfa) (w : List UInt8) :
    w.foldlM (fun ids b => (n.move? ids b).bind n.closure?) [] = some [] := by
  induction w with
  | nil => rfl
  | cons b w ih =>
    have hmove : n.move? [] b = some [] := rfl
    rw [List.foldlM_cons, hmove, Option.bind_some, closure?_nil]
    exact ih

/-- What is read from a closed set is what the lists come to. -/
theorem reads_iff {accept : Nat} : n.Reads accept ids.toFinset w answer ↔
    ∃ final, w.foldlM (fun ids b => (n.move? ids b).bind n.closure?) ids = some final ∧
      final.contains accept = answer := by
  induction w generalizing ids with
  | nil =>
    have hcontains : ids.contains accept = decide (accept ∈ ids.toFinset) := by
      simp [List.contains_eq_mem]
    constructor
    · intro h
      cases h
      exact ⟨ids, rfl, hcontains⟩
    · rintro ⟨final, hfinal, rfl⟩
      obtain rfl := Option.some.inj hfinal
      rw [hcontains]
      exact .done
  | cons b w ih =>
    rw [List.foldlM_cons]
    constructor
    · intro h
      cases h with
      | stuck hfollow =>
        rw [follow?_toFinset] at hfollow
        obtain ⟨moved, hmove, hempty⟩ := Option.map_eq_some_iff.mp hfollow
        obtain rfl := (List.toFinset_eq_empty_iff _).mp hempty
        rw [hmove, Option.bind_some, closure?_nil]
        exact ⟨[], foldlM_of_nil n w, rfl⟩
      | step hfollow _ hcloses hreads =>
        rw [follow?_toFinset] at hfollow
        obtain ⟨moved, hmove, rfl⟩ := Option.map_eq_some_iff.mp hfollow
        obtain ⟨ids', hclosure, rfl⟩ := closes_iff.mp hcloses
        rw [hmove, Option.bind_some, hclosure]
        exact ih.mp hreads
    · rintro ⟨final, hfinal, hanswer⟩
      obtain ⟨ids', hnext, hrest⟩ := Option.bind_eq_some_iff.mp hfinal
      obtain ⟨moved, hmove, hclosure⟩ := Option.bind_eq_some_iff.mp hnext
      have hfollow : n.follow? ids.toFinset b = some moved.toFinset := by
        rw [follow?_toFinset, hmove, Option.map_some]
      by_cases hempty : moved = []
      · -- the lists go on, but with nothing in them
        subst hempty
        obtain rfl := Option.some.inj ((closure?_nil n).symm.trans hclosure)
        obtain rfl := Option.some.inj ((foldlM_of_nil n w).symm.trans hrest)
        exact hanswer ▸ .stuck hfollow
      · exact .step hfollow (mt (List.toFinset_eq_empty_iff _).mp hempty)
          (closes_iff.mpr ⟨ids', hclosure, rfl⟩) (ih.mpr ⟨final, hrest, hanswer⟩)

/-- On every arena the match with sets ends iff the simulation answers, with the same
answer. -/
theorem matches_iff {f : Fragment} :
    n.Matches f w answer ↔ n.accepts? f w = some answer := by
  have hstart : ({f.start} : Finset Nat) = [f.start].toFinset := rfl
  unfold Matches accepts?
  rw [hstart]
  constructor
  · rintro ⟨first, hcloses, hreads⟩
    obtain ⟨ids, hclosure, rfl⟩ := closes_iff.mp hcloses
    obtain ⟨final, hfinal, hanswer⟩ := reads_iff.mp hreads
    refine Option.bind_eq_some_iff.mpr ⟨ids, hclosure, ?_⟩
    exact Option.bind_eq_some_iff.mpr ⟨final, hfinal, congrArg some hanswer⟩
  · intro h
    obtain ⟨ids, hclosure, hrest⟩ := Option.bind_eq_some_iff.mp h
    obtain ⟨final, hfinal, hanswer⟩ := Option.bind_eq_some_iff.mp hrest
    exact ⟨ids.toFinset, closes_iff.mpr ⟨ids, hclosure, rfl⟩,
      reads_iff.mpr ⟨final, hfinal, Option.some.inj hanswer⟩⟩

end Munch.Nfa
