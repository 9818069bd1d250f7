import Mathlib.Data.List.Basic
import Munch.Dfa.Basic

/-!
# The view of a table

A table is read through `originOf`, `acceptOf` and `step`. This module says what
each way of writing to a table does to the three: `insert` either finds the
state with the given origin or appends one without edges (`insert_cases`), and
`link` changes one entry of one row (`step_link`).
-/

namespace Munch.Dfa

variable {d : Dfa}

/-! ## Missing states -/

theorem state?_eq_none_iff {id : Nat} : d.state? id = none ↔ d.size ≤ id := by
  unfold state? size
  exact Array.getElem?_eq_none_iff

theorem exists_state? {id : Nat} (h : id < d.size) : ∃ s, d.state? id = some s := by
  cases hs : d.state? id with
  | none => exact absurd h (Nat.not_lt.mpr (state?_eq_none_iff.mp hs))
  | some s => exact ⟨s, rfl⟩

theorem exists_state?_of_mem {s : State} (h : s ∈ d.states.toList) :
    ∃ id < d.size, d.state? id = some s := by
  obtain ⟨id, hid, rfl⟩ := List.getElem_of_mem h
  refine ⟨id, hid, ?_⟩
  rw [state?, ← Array.getElem?_toList, List.getElem?_eq_getElem hid]

theorem next?_of_state?_eq_none {id : Nat} (h : d.state? id = none) (code : Nat) :
    d.next? id code = none := by
  unfold next?
  rw [h]

theorem lt_size_of_state? {id : Nat} {s : State} (h : d.state? id = some s) : id < d.size :=
  (Array.getElem?_eq_some_iff.mp h).1

/-- An edge is an entry of a row. -/
theorem step_eq_some_iff {id target : Nat} {b : UInt8} :
    d.step id b = some target ↔
      ∃ s i, d.state? id = some s ∧ Alphabet.symbol i = b ∧ s.row.get i = some target := by
  unfold step next?
  refine ⟨fun h => ?_, fun ⟨s, i, hs, hb, hentry⟩ => ?_⟩
  · split at h
    · rename_i s i hs hi
      exact ⟨s, i, hs, Alphabet.symbol_of_index? hi, h⟩
    · cases h
  · rw [hs, ← hb, Alphabet.index?_symbol]
    exact hentry

/-- Only an existing state has edges, and only under printable symbols. -/
theorem of_step_eq_some {id target : Nat} {b : UInt8} (h : d.step id b = some target) :
    id < d.size ∧ b ∈ Alphabet.symbols := by
  obtain ⟨s, i, hs, rfl, _⟩ := step_eq_some_iff.mp h
  exact ⟨lt_size_of_state? hs, List.mem_map_of_mem (List.mem_finRange i)⟩

/-! ## Looking for an origin -/

theorem originOf_of_idOf? {origin : List Nat} {id : Nat} (h : d.idOf? origin = some id) :
    id < d.size ∧ d.originOf id = origin := by
  obtain ⟨hlt, heq, _⟩ := Array.findIdx?_eq_some_iff_getElem.mp h
  refine ⟨hlt, ?_⟩
  unfold originOf state?
  rw [Array.getElem?_eq_getElem hlt]
  exact beq_iff_eq.mp heq

theorem originOf_ne_of_idOf?_eq_none {origin : List Nat} {id : Nat}
    (h : d.idOf? origin = none) (hid : id < d.size) : d.originOf id ≠ origin := by
  intro heq
  have hno := Array.findIdx?_eq_none_iff.mp h d.states[id] (Array.getElem_mem hid)
  unfold originOf state? at heq
  rw [Array.getElem?_eq_getElem hid] at heq
  exact absurd (beq_iff_eq.mpr heq) (ne_true_of_eq_false hno)

/-! ## Appending a state -/

/-- The table with one more state. -/
def append (d : Dfa) (s : State) : Dfa :=
  { d with states := d.states.push s }

@[simp] theorem size_append (d : Dfa) (s : State) : (d.append s).size = d.size + 1 := by
  unfold size append
  exact Array.size_push s

theorem state?_append (d : Dfa) (s : State) (id : Nat) :
    (d.append s).state? id = if id = d.size then some s else d.state? id :=
  Array.getElem?_push

theorem state?_append_of_lt {id : Nat} (s : State) (h : id < d.size) :
    (d.append s).state? id = d.state? id := by
  rw [state?_append, if_neg (Nat.ne_of_lt h)]

theorem state?_append_size (d : Dfa) (s : State) : (d.append s).state? d.size = some s := by
  rw [state?_append, if_pos rfl]

theorem originOf_append_of_lt {id : Nat} (s : State) (h : id < d.size) :
    (d.append s).originOf id = d.originOf id := by
  unfold originOf
  rw [state?_append_of_lt s h]

theorem originOf_append_size (d : Dfa) (s : State) : (d.append s).originOf d.size = s.origin := by
  unfold originOf
  rw [state?_append_size]
  rfl

theorem acceptOf_append_of_lt {id : Nat} (s : State) (h : id < d.size) :
    (d.append s).acceptOf id = d.acceptOf id := by
  unfold acceptOf
  rw [state?_append_of_lt s h]

theorem acceptOf_append_size (d : Dfa) (s : State) : (d.append s).acceptOf d.size = s.accept := by
  unfold acceptOf
  rw [state?_append_size]
  rfl

/-- Different states have different origins. -/
def Distinct (d : Dfa) : Prop :=
  ∀ i < d.size, ∀ j < d.size, d.originOf i = d.originOf j → i = j

theorem Distinct.append (h : d.Distinct) {s : State}
    (hnew : ∀ id < d.size, d.originOf id ≠ s.origin) : (d.append s).Distinct := by
  intro i hi j hj hij
  rw [size_append, Nat.lt_succ_iff_lt_or_eq] at hi hj
  rcases hi with hi | rfl <;> rcases hj with hj | rfl
  · rw [originOf_append_of_lt _ hi, originOf_append_of_lt _ hj] at hij
    exact h i hi j hj hij
  · rw [originOf_append_of_lt _ hi, originOf_append_size] at hij
    exact absurd hij (hnew i hi)
  · rw [originOf_append_of_lt _ hj, originOf_append_size] at hij
    exact absurd hij.symm (hnew j hj)
  · rfl

theorem distinct_empty : Distinct empty :=
  fun i hi => absurd hi (Nat.not_lt_zero i)

/-- Where origins are distinct the search finds the one state of that origin. -/
theorem Distinct.idOf?_eq_some_iff (h : d.Distinct) {origin : List Nat} {id : Nat} :
    d.idOf? origin = some id ↔ id < d.size ∧ d.originOf id = origin := by
  refine ⟨originOf_of_idOf?, fun ⟨hid, horigin⟩ => ?_⟩
  cases hfind : d.idOf? origin with
  | none => exact absurd horigin (originOf_ne_of_idOf?_eq_none hfind hid)
  | some other =>
    obtain ⟨hother, horigin'⟩ := originOf_of_idOf? hfind
    rw [h other hother id hid (horigin'.trans horigin.symm)]

/-- A state without edges leads nowhere. -/
theorem next?_emptyRow {id : Nat} {origin : List Nat} {accept : Option Tag}
    (h : d.state? id = some ⟨origin, emptyRow, accept⟩) (code : Nat) : d.next? id code = none := by
  unfold next?
  rw [h]
  cases Alphabet.index? code with
  | none => rfl
  | some i => exact Vector.getElem_replicate i.isLt

/-- A new state without edges adds no edge. -/
theorem step_append_emptyRow (d : Dfa) (origin : List Nat) (accept : Option Tag) (id : Nat)
    (b : UInt8) : (d.append ⟨origin, emptyRow, accept⟩).step id b = d.step id b := by
  by_cases hid : id = d.size
  · subst hid
    unfold step
    rw [next?_emptyRow (state?_append_size d _)]
    exact (next?_of_state?_eq_none (state?_eq_none_iff.mpr (Nat.le_refl _)) _).symm
  · unfold step next?
    rw [state?_append, if_neg hid]

/-- What `insert` can do: find the state of that origin and leave the table as it
is, or append a state without edges. -/
theorem insert_cases (d : Dfa) (origin : List Nat) (accept : Option Tag) :
    (∃ id < d.size, d.originOf id = origin ∧ d.insert origin accept = ⟨id, false, d⟩) ∨
      ((∀ id < d.size, d.originOf id ≠ origin) ∧
        d.insert origin accept = ⟨d.size, true, d.append ⟨origin, emptyRow, accept⟩⟩) := by
  unfold insert
  cases h : d.idOf? origin with
  | some id =>
    obtain ⟨hlt, heq⟩ := originOf_of_idOf? h
    exact .inl ⟨id, hlt, heq, rfl⟩
  | none => exact .inr ⟨fun id hid => originOf_ne_of_idOf?_eq_none h hid, rfl⟩

/-! ## Growth -/

/-- The second table has the states of the first, with their origins and edges. -/
structure Extends (d d' : Dfa) : Prop where
  size_le : d.size ≤ d'.size
  start : d'.start = d.start
  origin : ∀ id < d.size, d'.originOf id = d.originOf id
  step : ∀ id b target, d.step id b = some target → d'.step id b = some target

theorem Extends.refl (d : Dfa) : Extends d d :=
  ⟨Nat.le_refl _, rfl, fun _ _ => rfl, fun _ _ _ h => h⟩

theorem Extends.trans {d₁ d₂ d₃ : Dfa} (h : Extends d₁ d₂) (h' : Extends d₂ d₃) :
    Extends d₁ d₃ := by
  refine ⟨Nat.le_trans h.size_le h'.size_le, h'.start.trans h.start, ?_, ?_⟩
  · intro id hid
    rw [h'.origin id (Nat.lt_of_lt_of_le hid h.size_le), h.origin id hid]
  · exact fun id b target hstep => h'.step id b target (h.step id b target hstep)

/-! ## Writing an entry -/

@[simp] theorem start_link (d : Dfa) (source : Nat) (b : UInt8) (target : Option Nat) :
    (d.link source b target).start = d.start := by
  unfold link
  split <;> rfl

/-- Writing an entry leaves origins as they are. -/
@[simp] theorem originOf_link (d : Dfa) (source : Nat) (b : UInt8) (target : Option Nat)
    (id : Nat) : (d.link source b target).originOf id = d.originOf id := by
  cases hb : Alphabet.index? b.toNat with
  | none => rw [link_of_no_column hb]
  | some i =>
    unfold originOf
    rw [state?_link hb]
    split
    · cases d.state? id <;> rfl
    · rfl

/-- Writing an entry leaves tags as they are. -/
@[simp] theorem acceptOf_link (d : Dfa) (source : Nat) (b : UInt8) (target : Option Nat)
    (id : Nat) : (d.link source b target).acceptOf id = d.acceptOf id := by
  cases hb : Alphabet.index? b.toNat with
  | none => rw [link_of_no_column hb]
  | some i =>
    unfold acceptOf
    rw [state?_link hb]
    split
    · cases d.state? id <;> rfl
    · rfl

theorem Distinct.link (h : d.Distinct) (source : Nat) (b : UInt8) (target : Option Nat) :
    (d.link source b target).Distinct := by
  simp only [Distinct, size_link, originOf_link]
  exact h

/-- Writing an entry of an existing state changes that entry and no other. -/
theorem step_link {source : Nat} {b : UInt8} (hs : source < d.size) (hb : b ∈ Alphabet.symbols)
    (target : Option Nat) (id : Nat) (c : UInt8) :
    (d.link source b target).step id c = if source = id ∧ b = c then target else d.step id c := by
  obtain ⟨i, hi⟩ : ∃ i, Alphabet.index? b.toNat = some i := by
    cases hi : Alphabet.index? b.toNat with
    | none => exact absurd hb (Alphabet.index?_eq_none_iff_not_mem.mp hi)
    | some i => exact ⟨i, rfl⟩
  unfold step next?
  rw [state?_link hi]
  by_cases hid : source = id
  · subst hid
    obtain ⟨s, hst⟩ := exists_state? hs
    rw [if_pos rfl, hst]
    cases hj : Alphabet.index? c.toNat with
    | none =>
      have hne : b ≠ c := by
        intro heq
        rw [heq, hj] at hi
        exact absurd hi (by simp)
      simp [hne]
    | some j =>
      by_cases hbc : b = c
      · subst hbc
        rw [hj] at hi
        obtain rfl := Option.some.inj hi
        rw [if_pos ⟨rfl, rfl⟩]
        exact Vector.getElem_set_self j.isLt
      · have hij : (i : Nat) ≠ j := by
          intro heq
          apply hbc
          rw [← Alphabet.symbol_of_index? hi, ← Alphabet.symbol_of_index? hj, Fin.ext heq]
        rw [if_neg (fun h => hbc h.2)]
        exact Vector.getElem_set_ne i.isLt j.isLt hij
  · rw [if_neg hid, if_neg (fun h => hid h.1)]

/-! ## Closed tables -/

/-- It is enough to look at the rows of the states that exist. -/
theorem closed_iff_forall_rows : d.Closed ↔
    ∀ s ∈ d.states.toList, ∀ i : Column, ∀ target ∈ s.row.get i, target < d.size := by
  refine ⟨fun hd s hs i target htarget => ?_, fun h id b target hstep => ?_⟩
  · obtain ⟨id, _, hstate⟩ := exists_state?_of_mem hs
    exact hd id _ target (step_eq_some_iff.mpr ⟨s, i, hstate, rfl, htarget⟩)
  · obtain ⟨s, i, hs, _, hentry⟩ := step_eq_some_iff.mp hstep
    exact h s (Array.mem_toList_iff.mpr (Array.mem_of_getElem? hs)) i target hentry

instance (d : Dfa) : Decidable d.Closed :=
  decidable_of_iff' _ closed_iff_forall_rows

end Munch.Dfa
