import Munch.Proofs.Nfa.Path

/-!
# What growth does to edges and stamps

An arena is read through `edgesOf`, `epsilonOf` and `stampOf`. Adding a state
changes none of the three, since a missing state reads as one without edges;
each other way of growing adds one entry to one of them, and only if the state
that it writes to exists.
-/

namespace Munch.Nfa

variable {n : Nfa}

theorem edgesOf_eq_nil_of_size_le {id : Nat} (h : n.size ≤ id) : n.edgesOf id = [] := by
  rw [edgesOf, state?_eq_none_iff.mpr h]
  rfl

theorem epsilonOf_eq_nil_of_size_le {id : Nat} (h : n.size ≤ id) : n.epsilonOf id = [] := by
  rw [epsilonOf, state?_eq_none_iff.mpr h]
  rfl

theorem stampOf_eq_none_of_size_le {id : Nat} (h : n.size ≤ id) : n.stampOf id = none := by
  rw [stampOf, state?_eq_none_iff.mpr h]
  rfl

theorem exists_state? {id : Nat} (h : id < n.size) : ∃ s, n.state? id = some s := by
  cases hs : n.state? id with
  | none => exact absurd h (Nat.not_lt.mpr (state?_eq_none_iff.mp hs))
  | some s => exact ⟨s, rfl⟩

/-- Rewriting one state does not change a part of the view that the rewriting
keeps. -/
theorem elim_ite_map {α : Type} {view : State → α} {f : State → State}
    (h : ∀ s, view (f s) = view s) (site id : Nat) (found : Option State) (a : α) :
    (if site = id then found.map f else found).elim a view = found.elim a view := by
  split
  · cases found with
    | none => rfl
    | some s => exact h s
  · rfl

theorem stampOf_eq_elim (n : Nfa) (id : Nat) : n.stampOf id = (n.state? id).elim none State.stamp := by
  unfold stampOf
  cases n.state? id <;> rfl

/-! ## A new state -/

/-- A state behind the others does not change a part of the view in which it reads
like a missing one. -/
theorem elim_ite_some {α : Type} {view : State → α} {s : State} {a : α} (h : view s = a)
    (n : Nfa) (id : Nat) :
    (if id = n.size then some s else n.state? id).elim a view = (n.state? id).elim a view := by
  split
  · rename_i hid
    rw [state?_eq_none_iff.mpr (Nat.le_of_eq hid.symm)]
    exact h
  · rfl

@[simp] theorem edgesOf_addState (n : Nfa) (id : Nat) : n.addState.edgesOf id = n.edgesOf id := by
  unfold edgesOf
  rw [state?_addState]
  apply elim_ite_some
  rfl

@[simp] theorem epsilonOf_addState (n : Nfa) (id : Nat) :
    n.addState.epsilonOf id = n.epsilonOf id := by
  unfold epsilonOf
  rw [state?_addState]
  apply elim_ite_some
  rfl

@[simp] theorem stampOf_addState (n : Nfa) (id : Nat) : n.addState.stampOf id = n.stampOf id := by
  rw [stampOf_eq_elim, stampOf_eq_elim, state?_addState]
  apply elim_ite_some
  rfl

/-! ## A new edge -/

theorem edgesOf_addEdge (n : Nfa) (source : Nat) (b : UInt8) (target id : Nat) :
    (n.addEdge source b target).edgesOf id =
      n.edgesOf id ++ if source = id ∧ source < n.size then [(b, target)] else [] := by
  unfold edgesOf
  rw [state?_addEdge]
  by_cases hid : source = id
  · subst hid
    by_cases hs : source < n.size
    · obtain ⟨s, hstate⟩ := exists_state? hs
      simp [hstate, hs]
    · simp [hs, state?_eq_none_iff.mpr (Nat.le_of_not_lt hs)]
  · simp [hid]

@[simp] theorem epsilonOf_addEdge (n : Nfa) (source : Nat) (b : UInt8) (target id : Nat) :
    (n.addEdge source b target).epsilonOf id = n.epsilonOf id := by
  unfold epsilonOf
  rw [state?_addEdge]
  apply elim_ite_map
  exact fun _ => rfl

@[simp] theorem stampOf_addEdge (n : Nfa) (source : Nat) (b : UInt8) (target id : Nat) :
    (n.addEdge source b target).stampOf id = n.stampOf id := by
  rw [stampOf_eq_elim, stampOf_eq_elim, state?_addEdge]
  apply elim_ite_map
  exact fun _ => rfl

/-! ## A new ε-edge -/

@[simp] theorem edgesOf_addEpsilon (n : Nfa) (source target id : Nat) :
    (n.addEpsilon source target).edgesOf id = n.edgesOf id := by
  unfold edgesOf
  rw [state?_addEpsilon]
  apply elim_ite_map
  exact fun _ => rfl

theorem epsilonOf_addEpsilon (n : Nfa) (source target id : Nat) :
    (n.addEpsilon source target).epsilonOf id =
      n.epsilonOf id ++ if source = id ∧ source < n.size then [target] else [] := by
  unfold epsilonOf
  rw [state?_addEpsilon]
  by_cases hid : source = id
  · subst hid
    by_cases hs : source < n.size
    · obtain ⟨s, hstate⟩ := exists_state? hs
      simp [hstate, hs]
    · simp [hs, state?_eq_none_iff.mpr (Nat.le_of_not_lt hs)]
  · simp [hid]

@[simp] theorem stampOf_addEpsilon (n : Nfa) (source target id : Nat) :
    (n.addEpsilon source target).stampOf id = n.stampOf id := by
  rw [stampOf_eq_elim, stampOf_eq_elim, state?_addEpsilon]
  apply elim_ite_map
  exact fun _ => rfl

/-! ## A new stamp -/

@[simp] theorem edgesOf_stamp (n : Nfa) (site : Nat) (tag : Tag) (id : Nat) :
    (n.stamp site tag).edgesOf id = n.edgesOf id := by
  unfold edgesOf
  rw [state?_stamp]
  apply elim_ite_map
  exact fun _ => rfl

@[simp] theorem epsilonOf_stamp (n : Nfa) (site : Nat) (tag : Tag) (id : Nat) :
    (n.stamp site tag).epsilonOf id = n.epsilonOf id := by
  unfold epsilonOf
  rw [state?_stamp]
  apply elim_ite_map
  exact fun _ => rfl

/-- A stamp lands on an existing state that has none. -/
theorem stampOf_stamp (n : Nfa) (site : Nat) (tag : Tag) (id : Nat) :
    (n.stamp site tag).stampOf id =
      if site = id ∧ site < n.size then (n.stampOf id).or (some tag) else n.stampOf id := by
  unfold stampOf
  rw [state?_stamp]
  by_cases hid : site = id
  · subst hid
    by_cases hs : site < n.size
    · obtain ⟨s, hstate⟩ := exists_state? hs
      simp [hstate, hs]
    · simp [hs, state?_eq_none_iff.mpr (Nat.le_of_not_lt hs)]
  · simp [hid]

/-- An arena is the states that it has. -/
theorem eq_of_state?_eq {n' : Nfa} (h : ∀ id, n.state? id = n'.state? id) : n = n' := by
  cases n
  cases n'
  exact congrArg Nfa.mk (Array.ext_getElem? h)

/-- A state that has a stamp takes no other. -/
theorem stamp_eq_self {id : Nat} {tag : Tag} (h : n.stampOf id = some tag) (new : Tag) :
    n.stamp id new = n := by
  apply eq_of_state?_eq
  intro other
  rw [state?_stamp]
  by_cases hid : id = other
  · subst hid
    obtain ⟨⟨edges, epsilon, stamp⟩, hstate, rfl⟩ := Option.bind_eq_some_iff.mp h
    rw [if_pos rfl, hstate]
    rfl
  · rw [if_neg hid]

/-! ## More edges -/

/-- The second arena has the states and edges of the first, and maybe more. -/
structure Grows (n n' : Nfa) : Prop where
  size_le : n.size ≤ n'.size
  edges : ∀ id, n.edgesOf id ⊆ n'.edgesOf id
  epsilon : ∀ id, n.epsilonOf id ⊆ n'.epsilonOf id

theorem Grows.trans {n₁ n₂ n₃ : Nfa} (h : Grows n₁ n₂) (h' : Grows n₂ n₃) : Grows n₁ n₃ :=
  ⟨Nat.le_trans h.size_le h'.size_le, fun id => List.Subset.trans (h.edges id) (h'.edges id),
    fun id => List.Subset.trans (h.epsilon id) (h'.epsilon id)⟩

theorem grows_addState (n : Nfa) : Grows n n.addState := by
  refine ⟨by rw [size_addState]; exact Nat.le_succ _, fun id => ?_, fun id => ?_⟩
  · rw [edgesOf_addState]
    exact List.Subset.refl _
  · rw [epsilonOf_addState]
    exact List.Subset.refl _

theorem grows_addEdge (n : Nfa) (source : Nat) (b : UInt8) (target : Nat) :
    Grows n (n.addEdge source b target) := by
  refine ⟨by rw [size_addEdge], fun id => ?_, fun id => ?_⟩
  · rw [edgesOf_addEdge]
    exact List.subset_append_left _ _
  · rw [epsilonOf_addEdge]
    exact List.Subset.refl _

theorem grows_addEpsilon (n : Nfa) (source target : Nat) :
    Grows n (n.addEpsilon source target) := by
  refine ⟨by rw [size_addEpsilon], fun id => ?_, fun id => ?_⟩
  · rw [edgesOf_addEpsilon]
    exact List.Subset.refl _
  · rw [epsilonOf_addEpsilon]
    exact List.subset_append_left _ _

theorem grows_stamp (n : Nfa) (site : Nat) (tag : Tag) : Grows n (n.stamp site tag) := by
  refine ⟨by rw [size_stamp], fun id => ?_, fun id => ?_⟩
  · rw [edgesOf_stamp]
    exact List.Subset.refl _
  · rw [epsilonOf_stamp]
    exact List.Subset.refl _

/-- More edges keep every path. -/
theorem Grows.path {n' : Nfa} (h : Grows n n') {q r : Nat} {w : List UInt8}
    (hpath : n.Path q w r) : n'.Path q w r := by
  induction hpath with
  | nil q => exact .nil q
  | epsilon hstep _ ih => exact .epsilon (h.epsilon _ hstep) ih
  | edge hstep _ ih => exact .edge (h.edges _ hstep) ih

/-! ## Closed arenas stay closed -/

theorem Closed.addState (h : n.Closed) : n.addState.Closed := by
  constructor
  · intro id e he
    rw [edgesOf_addState] at he
    rw [size_addState]
    exact Nat.lt_succ_of_lt (h.edges id e he)
  · intro id target ht
    rw [epsilonOf_addState] at ht
    rw [size_addState]
    exact Nat.lt_succ_of_lt (h.epsilon id target ht)

theorem Closed.addEdge (h : n.Closed) {source target : Nat} {b : UInt8} (ht : target < n.size) :
    (n.addEdge source b target).Closed := by
  constructor
  · intro id e he
    rw [size_addEdge]
    rw [edgesOf_addEdge, List.mem_append] at he
    rcases he with he | he
    · exact h.edges id e he
    · split at he
      · rw [List.mem_singleton.mp he]
        exact ht
      · exact absurd he (List.not_mem_nil)
  · intro id t hmem
    rw [epsilonOf_addEdge] at hmem
    rw [size_addEdge]
    exact h.epsilon id t hmem

theorem Closed.addEpsilon (h : n.Closed) {source target : Nat} (ht : target < n.size) :
    (n.addEpsilon source target).Closed := by
  constructor
  · intro id e he
    rw [edgesOf_addEpsilon] at he
    rw [size_addEpsilon]
    exact h.edges id e he
  · intro id t hmem
    rw [size_addEpsilon]
    rw [epsilonOf_addEpsilon, List.mem_append] at hmem
    rcases hmem with hmem | hmem
    · exact h.epsilon id t hmem
    · split at hmem
      · rw [List.mem_singleton.mp hmem]
        exact ht
      · exact absurd hmem (List.not_mem_nil)

theorem Closed.stamp (h : n.Closed) (site : Nat) (tag : Tag) : (n.stamp site tag).Closed := by
  constructor
  · intro id e he
    rw [edgesOf_stamp] at he
    rw [size_stamp]
    exact h.edges id e he
  · intro id target ht
    rw [epsilonOf_stamp] at ht
    rw [size_stamp]
    exact h.epsilon id target ht

end Munch.Nfa
