import Mathlib.Data.List.Basic
import Munch.Nfa.Closure

/-!
# The stamp that counts

Among the stamped states of a set, the one of lowest priority counts, and of
several such the one with the lowest name. `Nfa.Prevails` says so without a
search; `bestStamp_eq_some_iff` says that the search finds exactly this stamp.
-/

namespace Munch.Nfa

variable {n : Nfa} {ids : List Nat}

/-- `id` carries `tag`, and no stamped state of the set comes before it in the
order of priorities and then of names. -/
structure Prevails (n : Nfa) (ids : List Nat) (id : Nat) (tag : Tag) : Prop where
  mem : id ∈ ids
  stamp : n.stampOf id = some tag
  least : ∀ other ∈ ids, ∀ rival, n.stampOf other = some rival →
    tag.priority < rival.priority ∨ (tag.priority = rival.priority ∧ id ≤ other)

/-- At most one state prevails. -/
theorem Prevails.unique {id id' : Nat} {tag tag' : Tag} (h : n.Prevails ids id tag)
    (h' : n.Prevails ids id' tag') : id = id' ∧ tag = tag' := by
  have hid : id = id' := by
    have h1 := h.least id' h'.mem tag' h'.stamp
    have h2 := h'.least id h.mem tag h.stamp
    omega
  subst hid
  exact ⟨rfl, Option.some.inj (h.stamp.symm.trans h'.stamp)⟩

theorem bestStamp_cons_of_none {id : Nat} (h : n.stampOf id = none) :
    n.bestStamp (id :: ids) = n.bestStamp ids := by
  unfold bestStamp
  rw [List.filterMap_cons_none h]

theorem bestStamp_cons_of_some {id : Nat} {tag : Tag} (h : n.stampOf id = some tag) :
    n.bestStamp (id :: ids) = some ((n.bestStamp ids).elim tag (minOn Tag.priority tag)) := by
  unfold bestStamp
  rw [List.filterMap_cons_some h, List.minOn?_cons]

theorem bestStamp_eq_none_iff : n.bestStamp ids = none ↔ ∀ id ∈ ids, n.stampOf id = none := by
  induction ids with
  | nil => simp [bestStamp]
  | cons id ids ih =>
    rw [List.forall_mem_cons]
    cases h : n.stampOf id with
    | none =>
      rw [bestStamp_cons_of_none h, ih]
      exact ⟨fun hall => ⟨rfl, hall⟩, fun hall => hall.2⟩
    | some tag =>
      rw [bestStamp_cons_of_some h]
      exact ⟨fun hno => absurd hno (by simp), fun hno => absurd hno.1 (by simp)⟩

/-- A state in front that has no stamp changes nothing. -/
theorem Prevails.cons_of_none {id first : Nat} {tag : Tag} (hfirst : n.stampOf first = none)
    (h : n.Prevails ids id tag) : n.Prevails (first :: ids) id tag := by
  refine ⟨List.mem_cons_of_mem _ h.mem, h.stamp, ?_⟩
  intro other hother rival hrival
  rcases List.mem_cons.mp hother with rfl | hother
  · rw [hfirst] at hrival
    exact absurd hrival (by simp)
  · exact h.least other hother rival hrival

/-- A stamped state in front prevails, unless another has a strictly lower
priority. -/
theorem Prevails.cons_of_some {id first : Nat} {tag front : Tag}
    (hlt : ∀ other ∈ ids, first < other) (hfirst : n.stampOf first = some front)
    (h : n.Prevails ids id tag) :
    ∃ id', n.Prevails (first :: ids) id' (minOn Tag.priority front tag) := by
  by_cases hle : front.priority ≤ tag.priority
  · rw [minOn_eq_left hle]
    refine ⟨first, List.mem_cons_self, hfirst, ?_⟩
    intro other hother rival hrival
    rcases List.mem_cons.mp hother with rfl | hother
    · rw [hfirst] at hrival
      obtain rfl := Option.some.inj hrival
      exact .inr ⟨rfl, Nat.le_refl _⟩
    · have := h.least other hother rival hrival
      have := hlt other hother
      omega
  · rw [minOn_eq_right hle]
    refine ⟨id, List.mem_cons_of_mem _ h.mem, h.stamp, ?_⟩
    intro other hother rival hrival
    rcases List.mem_cons.mp hother with rfl | hother
    · rw [hfirst] at hrival
      obtain rfl := Option.some.inj hrival
      omega
    · exact h.least other hother rival hrival

theorem exists_prevails (hids : ids.Pairwise (· < ·)) {tag : Tag}
    (h : n.bestStamp ids = some tag) : ∃ id, n.Prevails ids id tag := by
  induction ids generalizing tag with
  | nil => exact absurd h (by simp [bestStamp])
  | cons first ids ih =>
    obtain ⟨hlt, hrest⟩ := List.pairwise_cons.mp hids
    cases hfirst : n.stampOf first with
    | none =>
      rw [bestStamp_cons_of_none hfirst] at h
      obtain ⟨id, hid⟩ := ih hrest h
      exact ⟨id, hid.cons_of_none hfirst⟩
    | some front =>
      rw [bestStamp_cons_of_some hfirst] at h
      obtain rfl := Option.some.inj h
      cases hbest : n.bestStamp ids with
      | none =>
        -- nobody else is stamped
        refine ⟨first, List.mem_cons_self, hfirst, ?_⟩
        intro other hother rival hrival
        rcases List.mem_cons.mp hother with rfl | hother
        · rw [hfirst] at hrival
          obtain rfl := Option.some.inj hrival
          exact .inr ⟨rfl, Nat.le_refl _⟩
        · rw [bestStamp_eq_none_iff.mp hbest other hother] at hrival
          exact absurd hrival (by simp)
      | some best =>
        obtain ⟨id, hid⟩ := ih hrest hbest
        exact hid.cons_of_some hlt hfirst

/-- On an ascending list the search finds the stamp that prevails. -/
theorem bestStamp_eq_some_iff (hids : ids.Pairwise (· < ·)) {tag : Tag} :
    n.bestStamp ids = some tag ↔ ∃ id, n.Prevails ids id tag := by
  constructor
  · exact exists_prevails hids
  · rintro ⟨id, hid⟩
    cases hbest : n.bestStamp ids with
    | none =>
      have hnone := bestStamp_eq_none_iff.mp hbest id hid.mem
      rw [hid.stamp] at hnone
      exact absurd hnone (by simp)
    | some best =>
      obtain ⟨id', hid'⟩ := exists_prevails hids hbest
      rw [(hid'.unique hid).2]

end Munch.Nfa
