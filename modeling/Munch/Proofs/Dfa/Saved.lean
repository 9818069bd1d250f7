import Munch.Checked
import Munch.Proofs.Determinize
import Munch.Proofs.Dfa.Stored

/-!
# Saving and loading

A saved table is loaded as it was: one that is made state by state (`Made`), one that
the subset construction makes, and one that was loaded before. All three can be
stored, and the first two are seen to be so through the view of a table
(`storable_of_view`).
-/

namespace Munch.Dfa

variable {d : Dfa}

/-- A table can be stored if its states are in order and its numbers are small. -/
theorem storable_of_view (hsize : d.size < noEdge) (hstart : d.start < d.size) (hclosed : d.Closed)
    (hdistinct : d.Distinct) (hsorted : ∀ id < d.size, (d.originOf id).Pairwise (· ≤ ·))
    (horigin : ∀ id < d.size, ∀ q ∈ d.originOf id, q ≤ Json.maxStored)
    (haccept : ∀ id < d.size, ∀ tag ∈ d.acceptOf id, tag.priority ≤ Json.maxStored) :
    d.Storable := by
  refine ⟨hstart, Nat.le_of_lt (Nat.lt_trans hstart hsize), nodup_origins_iff.mpr hdistinct,
    fun s hs => ?_⟩
  obtain ⟨id, hlt, hstate⟩ := exists_state?_of_mem hs
  have hid : d.originOf id = s.origin := by
    rw [originOf, hstate, Option.elim_some]
  have htag : d.acceptOf id = s.accept := by
    rw [acceptOf, hstate, Option.bind_some]
  refine ⟨hid ▸ hsorted id hlt, hid ▸ horigin id hlt, htag ▸ haccept id hlt, fun target ht => ?_⟩
  obtain ⟨i, hi, hentry⟩ := Vector.mem_iff_getElem.mp ht
  have htarget : target < d.size := closed_iff_forall_rows.mp hclosed s hs ⟨i, hi⟩ target hentry
  exact ⟨htarget, Nat.lt_trans htarget hsize⟩

/-! ## Tables that are made -/

/-- The tables that are made from the empty one by adding states, writing edges of
states that exist, and moving the start. The names and ranks of the states can be
stored. -/
inductive Made : Dfa → Prop
  | empty : Made empty
  | insert {d : Dfa} {origin : List Nat} {accept : Option Tag} : Made d →
    (∀ q ∈ origin, q ≤ Json.maxStored) → (∀ tag ∈ accept, tag.priority ≤ Json.maxStored) →
    Made (d.insert origin accept).dfa
  | setEdge {d d' : Dfa} {source : Nat} {b : UInt8} {target : Nat} : Made d →
    d.setEdge? source b target = some d' → Made d'
  | setStart {d : Dfa} (id : Nat) : Made d → Made (d.setStart id)

theorem Made.setEdge_of_lt (h : Made d) {source : Nat} (hs : source < d.size) (b : UInt8)
    (target : Nat) : Made (d.setEdge source b target) := by
  refine .setEdge h (if_pos ?_)
  rw [Bool.or_eq_true, decide_eq_true_iff]
  exact .inr hs

/-- What the edits keep: origins are distinct and the numbers of the states small. -/
structure Fits (d : Dfa) : Prop where
  distinct : d.Distinct
  origin_le : ∀ id, ∀ q ∈ d.originOf id, q ≤ Json.maxStored
  priority_le : ∀ id, ∀ tag ∈ d.acceptOf id, tag.priority ≤ Json.maxStored

theorem fits_empty : Fits empty :=
  ⟨distinct_empty, fun _ _ hq => absurd hq List.not_mem_nil, fun _ _ htag => by cases htag⟩

theorem Fits.append (h : d.Fits) {s : State} (hnew : ∀ id < d.size, d.originOf id ≠ s.origin)
    (horigin : ∀ q ∈ s.origin, q ≤ Json.maxStored)
    (haccept : ∀ tag ∈ s.accept, tag.priority ≤ Json.maxStored) : (d.append s).Fits := by
  have hstate : ∀ id, (d.append s).originOf id = s.origin ∧ (d.append s).acceptOf id = s.accept ∨
      (d.append s).originOf id = d.originOf id ∧ (d.append s).acceptOf id = d.acceptOf id := by
    intro id
    simp only [originOf, acceptOf, state?_append]
    split
    · exact .inl ⟨rfl, rfl⟩
    · exact .inr ⟨rfl, rfl⟩
  refine ⟨h.distinct.append hnew, fun id => ?_, fun id => ?_⟩
  · rcases hstate id with ⟨heq, _⟩ | ⟨heq, _⟩
    · rw [heq]
      exact horigin
    · rw [heq]
      exact h.origin_le id
  · rcases hstate id with ⟨_, heq⟩ | ⟨_, heq⟩
    · rw [heq]
      exact haccept
    · rw [heq]
      exact h.priority_le id

theorem Fits.link (h : d.Fits) (source : Nat) (b : UInt8) (target : Option Nat) :
    (d.link source b target).Fits := by
  refine ⟨h.distinct.link source b target, fun id => ?_, fun id => ?_⟩
  · rw [originOf_link]
    exact h.origin_le id
  · rw [acceptOf_link]
    exact h.priority_le id

theorem Made.fits (h : Made d) : d.Fits := by
  induction h with
  | empty => exact fits_empty
  | @insert d origin accept _ horigin haccept ih =>
    rcases d.insert_cases origin accept with ⟨id, _, _, heq⟩ | ⟨hnew, heq⟩
    · rw [heq]
      exact ih
    · rw [heq]
      exact ih.append hnew horigin haccept
  | setEdge _ hedge ih =>
    rw [setEdge?, Option.ite_none_right_eq_some] at hedge
    obtain rfl := Option.some.inj hedge.2
    exact ih.link _ _ _
  | setStart id _ ih => exact ⟨ih.distinct, ih.origin_le, ih.priority_le⟩

/-- A made table can be stored if its start and its edges lead to states that exist,
its origins are ascending, and no state is named like a missing edge. -/
theorem Made.storable (h : Made d) (hsize : d.size < noEdge) (hstart : d.start < d.size)
    (hsorted : ∀ s ∈ d.states.toList, s.origin.Pairwise (· ≤ ·)) (hclosed : d.Closed) :
    d.Storable := by
  obtain ⟨hdistinct, horigin, haccept⟩ := h.fits
  refine storable_of_view hsize hstart hclosed hdistinct (fun id hid => ?_)
    (fun id _ => horigin id) (fun id _ => haccept id)
  obtain ⟨s, hs⟩ := exists_state? hid
  rw [originOf, hs, Option.elim_some]
  exact hsorted s (Array.mem_toList_iff.mpr (Array.mem_of_getElem? hs))

/-! ## Tables of the subset construction -/

/-- A table of closures can be stored if the names and ranks of the automaton can. -/
theorem storable_of_tableOf {n : Nfa} {root : Nat} (h : n.TableOf root d) (hsize : d.size < noEdge)
    (hids : n.size ≤ Json.maxStored + 1)
    (hstamps : ∀ q tag, n.stampOf q = some tag → tag.priority ≤ Json.maxStored) : d.Storable := by
  have hclosed : d.Closed := fun id b target hstep => (h.step id b target hstep).1
  -- an origin is a closure, so it is ascending and names states of the automaton
  have hascending : ∀ id < d.size, (d.originOf id).Pairwise (· < ·) := by
    intro id hid
    obtain ⟨seeds, hseeds⟩ := h.closed id hid
    rw [hseeds]
    exact n.pairwise_closure seeds
  refine storable_of_view hsize h.start_lt hclosed h.distinct
    (fun id hid => (hascending id hid).imp Nat.le_of_lt) ?_ ?_
  · intro id hid q hq
    obtain ⟨seeds, hseeds⟩ := h.closed id hid
    rw [hseeds] at hq
    exact Nat.le_of_lt_succ (Nat.lt_of_lt_of_le (Nfa.lt_size_of_mem_closure hq) hids)
  · intro id hid tag htag
    rw [h.accept id hid] at htag
    obtain ⟨q, hq⟩ := Nfa.exists_prevails (hascending id hid) htag
    exact hstamps q tag hq.stamp

/-! ## Saving and loading -/

/-- Loading gives back every table as it was saved, with the same start and states, so
it also finds origins and scans sources as before: a table that was made, one of the
subset construction, and one that was loaded. -/
theorem ofBytes_toBytes_eq_ok :
    (∀ d, Made d → d.size < noEdge → d.start < d.size →
      (∀ s ∈ d.states.toList, s.origin.Pairwise (· ≤ ·)) → d.Closed →
      ofBytes d.toBytes = .ok d) ∧
    (∀ (r : RootedNfa) d, r.determinize? = some d → r.nfa.size ≤ Json.maxStored + 1 →
      (∀ q tag, r.nfa.stampOf q = some tag → tag.priority ≤ Json.maxStored) → d.size < noEdge →
      ofBytes d.toBytes = .ok d) ∧
    ∀ data d, ofBytes data = .ok d → ofBytes d.toBytes = .ok d := by
  refine ⟨?_, ?_, ?_⟩
  · intro d hmade hsize hstart hsorted hclosed
    exact (hmade.storable hsize hstart hsorted hclosed).ofBytes_toBytes
  · intro r d hd hids hstamps hsize
    rw [RootedNfa.determinize?, Option.ite_none_right_eq_some] at hd
    obtain rfl := Option.some.inj hd.2
    exact (storable_of_tableOf r.determinize_tableOf hsize hids hstamps).ofBytes_toBytes
  · intro data d hd
    exact (storable_of_ofBytes hd).ofBytes_toBytes

/-- A tag with characters that are written in every way there is. -/
def awkwardTag : Tag :=
  ⟨"\"\\\n\x01é𝄞", 5⟩

/-- Two states that lead to each other, and the second is the start. -/
def awkward : Dfa :=
  let d := (empty.insert [3, 3, 7] (some awkwardTag)).dfa
  (((d.insert [] none).dfa.setEdge 0 97 1).setEdge 1 126 0).setStart 1

theorem made_awkward : Made awkward := by
  have hfirst : Made (empty.insert [3, 3, 7] (some awkwardTag)).dfa :=
    .insert .empty (by decide) (by decide)
  have hsecond : Made ((empty.insert [3, 3, 7] (some awkwardTag)).dfa.insert [] none).dfa :=
    .insert hfirst (by decide) (by decide)
  have hthere := hsecond.setEdge_of_lt (show 0 < _ by decide +kernel) 97 1
  exact .setStart 1 (hthere.setEdge_of_lt (by decide +kernel) 126 0)

/-- A stored table whose one origin is not ascending. -/
def shuffled : StoredTable where
  start := 0
  states := [⟨[7, 3], Vector.replicate 95 0, none, none⟩]

/-- The table of `shuffled`, whose one state leads to itself. -/
def unshuffled : Dfa where
  states := #[⟨[3, 7], Vector.replicate 95 (some 0), none⟩]

theorem ofBytes_shuffled : ofBytes shuffled.toJson.render = .ok unshuffled := by
  have hsmall : shuffled.Small := by
    refine ⟨by decide, List.forall_mem_singleton.mpr ⟨by decide, ?_, by decide⟩⟩
    decide +kernel
  have hbecomes : StoredState.Becomes ⟨[7, 3], Vector.replicate 95 0, none, none⟩
      ⟨[3, 7], Vector.replicate 95 (some 0), none⟩ := by
    refine ⟨?_, ?_, rfl⟩
    · simp [StoredState.sortedOrigin, List.mergeSort]
    · simp [StoredState.row, edge?, noEdge]
  have htable : shuffled.toDfa = .ok unshuffled := by
    rw [StoredTable.toDfa_eq_ok_iff]
    exact ⟨by decide, by decide +kernel, rfl, .cons hbecomes .nil, by decide⟩
  rw [ofBytes_render hsmall, htable]
  rfl

/-- Every kind of character survives, the table of rival stamps does, and an origin
that loading has put in order stays so. -/
theorem ofBytes_toBytes_eq_ok_samples :
    (Made awkward ∧ awkward.Closed ∧ ofBytes awkward.toBytes = .ok awkward) ∧
    (∃ d, RootedNfa.rivals.determinize? = some d ∧ ofBytes d.toBytes = .ok d) ∧
    ofBytes shuffled.toJson.render = .ok unshuffled ∧
      ofBytes unshuffled.toBytes = .ok unshuffled := by
  obtain ⟨hmade, hbuilt, hloaded⟩ := ofBytes_toBytes_eq_ok
  refine ⟨?_, ?_, ofBytes_shuffled, hloaded _ _ ofBytes_shuffled⟩
  · have hclosed : awkward.Closed := by decide +kernel
    exact ⟨made_awkward, hclosed, hmade awkward made_awkward (by decide +kernel) (by decide +kernel)
      (by decide +kernel) hclosed⟩
  · have hroot : RootedNfa.rivals.root < RootedNfa.rivals.nfa.size := by decide
    have hn : RootedNfa.rivals.nfa.Closed := by decide
    have hstamps : ∀ q tag, RootedNfa.rivals.nfa.stampOf q = some tag →
        tag.priority ≤ Json.maxStored := by
      have hall : ∀ s ∈ RootedNfa.rivals.nfa.states.toList, ∀ tag ∈ s.stamp,
          tag.priority ≤ Json.maxStored := by decide
      intro q tag htag
      obtain ⟨s, hs, hstamp⟩ := Option.bind_eq_some_iff.mp htag
      exact hall s (Array.mem_toList_iff.mpr (Array.mem_of_getElem? hs)) tag hstamp
    have htable := RootedNfa.determinize?_eq_determinize hroot hn
    have hsize := RootedNfa.rivals.determinize_tableOf.size_le
    exact ⟨_, htable, hbuilt _ _ htable (by decide) hstamps
      (Nat.lt_of_le_of_lt hsize (by decide))⟩

end Munch.Dfa
