/-!
# Sets of bounded ids

`IdSet n` holds a subset of the ids below `n` as one flag per id. It is the
memory of a search that must expand each id once: `lacks` asks whether an id is
in range and still absent, and `room_insert_lt` says that inserting such an id
leaves strictly less room, which is what bounds the search.
-/

namespace Munch

/-- A set of ids below `n`. -/
structure IdSet (n : Nat) where
  /-- Position `id` is set when `id` is a member. -/
  flags : Vector Bool n

namespace IdSet

variable {n : Nat}

/-- The set without members. -/
def empty (n : Nat) : IdSet n :=
  ⟨Vector.replicate n false⟩

/-- Whether `id` is a member. An id outside the range never is. -/
def contains (s : IdSet n) (id : Nat) : Bool :=
  s.flags[id]? == some true

/-- Whether `id` is in range and not a member. -/
def lacks (s : IdSet n) (id : Nat) : Bool :=
  s.flags[id]? == some false

/-- Adds `id`; an id outside the range is ignored. -/
def insert (s : IdSet n) (id : Nat) : IdSet n :=
  ⟨s.flags.setIfInBounds id true⟩

/-- The members, ascending. -/
def toList (s : IdSet n) : List Nat :=
  (List.range n).filter s.contains

/-- How many ids are still absent. -/
def room (s : IdSet n) : Nat :=
  s.flags.count false

/-! ## Membership -/

theorem lacks_iff (s : IdSet n) (id : Nat) : s.lacks id ↔ id < n ∧ ¬ s.contains id := by
  by_cases h : id < n
  · simp [lacks, contains, h]
  · simp [lacks, h]

theorem lt_of_contains {s : IdSet n} {id : Nat} (h : s.contains id) : id < n := by
  apply Decidable.byContradiction
  intro hn
  simp [contains, Vector.getElem?_eq_none (Nat.le_of_not_lt hn)] at h

theorem contains_empty (id : Nat) : (empty n).contains id = false := by
  by_cases h : id < n <;> simp [contains, empty, h]

theorem contains_insert (s : IdSet n) (id other : Nat) :
    (s.insert id).contains other ↔ s.contains other ∨ (other = id ∧ id < n) := by
  by_cases hid : id = other
  · subst hid
    by_cases hn : id < n
    · simp [contains, insert, hn]
    · simp [contains, insert, hn]
  · have : other ≠ id := fun h => hid h.symm
    simp [contains, insert, hid, this]

theorem mem_toList {s : IdSet n} {id : Nat} : id ∈ s.toList ↔ s.contains id := by
  simp only [toList, List.mem_filter, List.mem_range, and_iff_right_iff_imp]
  exact lt_of_contains

/-! ## Room -/

/-- Inserting an absent id uses up room. -/
theorem room_insert_lt {s : IdSet n} {id : Nat} (h : s.lacks id) :
    (s.insert id).room < s.room := by
  have hn : id < n := ((lacks_iff s id).mp h).1
  have hf : s.flags[id] = false := by
    simpa [lacks, Vector.getElem?_eq_getElem hn] using h
  have hmem : false ∈ s.flags := by
    rw [← hf]
    exact Vector.getElem_mem hn
  have hpos : 0 < s.flags.count false := Vector.count_pos_iff.mpr hmem
  have hset : s.flags.setIfInBounds id true = s.flags.set id true hn := by
    ext i hi
    simp [Vector.getElem_setIfInBounds, Vector.getElem_set]
  simp only [room, insert, hset, Vector.count_set, hf]
  simp
  omega

end IdSet

end Munch
