import Munch.Proofs.Dfa.Stored

/-!
# What loading accepts, and what it makes of it

`StoredTable.toDfa` checks a stored table while it builds the result. Taken together
its checks are `StoredTable.Valid`, which is said of the stored table alone, and the
result is a copy of it, state by state (`StoredState.CopiedAs`). Only the origins are
put in order, so how they were ordered does not matter: a stored table fares as the one
with all origins in order does (`StoredTable.toDfa_sorted`).
-/

namespace Munch

/-! ## States that are copied -/

namespace StoredState

variable {s s' : StoredState} {state : Dfa.State}

/-- The state has the ids of the stored origin in order, the stored token and priority,
and the stored entries, where the number that stands for a missing edge becomes one. -/
structure CopiedAs (s : StoredState) (state : Dfa.State) : Prop where
  ascending : state.origin.Pairwise (· ≤ ·)
  origin : state.origin.Perm s.origin
  token : state.accept.map Tag.token = s.token
  priority : state.accept.map Tag.priority = s.priority
  entry : ∀ i : Column, state.row.get i =
    if s.next.get i = Dfa.noEdge then none else some (s.next.get i)

theorem tag?_eq_some_iff {accept : Option Tag} : s.tag? = some accept ↔
    accept.map Tag.token = s.token ∧ accept.map Tag.priority = s.priority := by
  obtain ⟨_, _, token, priority⟩ := s
  cases accept with
  | none => cases token <;> cases priority <;> simp [tag?]
  | some tag =>
    obtain ⟨token', priority'⟩ := tag
    cases token <;> cases priority <;> simp [tag?, eq_comm]

theorem Becomes.copiedAs (h : s.Becomes state) : s.CopiedAs state := by
  obtain ⟨htoken, hpriority⟩ := tag?_eq_some_iff.mp h.tag
  refine ⟨?_, ?_, htoken, hpriority, fun i => ?_⟩
  · rw [h.origin]
    exact s.pairwise_sortedOrigin
  · rw [h.origin]
    exact List.mergeSort_perm _ _
  · rw [h.row]
    exact Vector.getElem_map _ _

theorem exists_tag?_iff :
    (∃ accept, s.tag? = some accept) ↔ (s.token.isSome = true ↔ s.priority.isSome = true) := by
  unfold tag?
  cases s.token <;> cases s.priority <;> simp

/-- The stored state with its origin in order. -/
def sorted (s : StoredState) : StoredState :=
  { s with origin := s.sortedOrigin }

theorem sortedOrigin_sorted (s : StoredState) : s.sorted.sortedOrigin = s.sortedOrigin := by
  have hsorted := s.pairwise_sortedOrigin.imp (S := fun a b => decide (a ≤ b) = true)
    decide_eq_true
  exact List.mergeSort_of_pairwise hsorted

/-- The two differ in the order of their origins at most. -/
structure Reordered (s s' : StoredState) : Prop where
  origin : s.origin.Perm s'.origin
  next : s.next = s'.next
  token : s.token = s'.token
  priority : s.priority = s'.priority

theorem Reordered.sorted_eq (h : s.Reordered s') : s.sorted = s'.sorted := by
  have hperm : s.sortedOrigin.Perm s'.sortedOrigin :=
    (List.mergeSort_perm _ _).trans (h.origin.trans (List.mergeSort_perm _ _).symm)
  have horigin : s.sortedOrigin = s'.sortedOrigin :=
    hperm.eq_of_pairwise (fun _ _ _ _ => Nat.le_antisymm) s.pairwise_sortedOrigin
      s'.pairwise_sortedOrigin
  rw [sorted, sorted, horigin, h.next, h.token, h.priority]

end StoredState

namespace StoredTable

variable {t t' : StoredTable} {d : Dfa}

/-! ## What is accepted -/

/-- What loading asks of a stored table. -/
structure Valid (t : StoredTable) : Prop where
  nonempty : t.states ≠ []
  start_lt : t.start < t.states.length
  paired : ∀ s ∈ t.states, s.token.isSome = true ↔ s.priority.isSome = true
  distinct : t.states.Pairwise fun s s' => s.sortedOrigin ≠ s'.sortedOrigin
  edges : ∀ s ∈ t.states, ∀ target ∈ s.next, target = Dfa.noEdge ∨ target < t.states.length

theorem exists_becomes_iff {ss : List StoredState} :
    (∃ states, List.Forall₂ StoredState.Becomes ss states) ↔
      ∀ s ∈ ss, s.token.isSome = true ↔ s.priority.isSome = true := by
  constructor
  · rintro ⟨states, h⟩
    induction h with
    | nil => exact fun s hs => absurd hs List.not_mem_nil
    | cons hstate _ ih =>
      exact List.forall_mem_cons.mpr ⟨StoredState.exists_tag?_iff.mp ⟨_, hstate.tag⟩, ih⟩
  · intro h
    refine ⟨ss.map fun s => ⟨s.sortedOrigin, s.row, s.tag?.getD none⟩, ?_⟩
    rw [List.forall₂_map_right_iff, List.forall₂_same]
    intro s hs
    obtain ⟨accept, htag⟩ := StoredState.exists_tag?_iff.mpr (h s hs)
    exact ⟨rfl, rfl, by rw [htag, Option.getD_some]⟩

/-- A stored table is accepted exactly if it is valid. -/
theorem exists_toDfa_iff : (∃ d, t.toDfa = .ok d) ↔ t.Valid := by
  have hedges : t.strayEdge? = none ↔ ∀ s ∈ t.states, ∀ target ∈ s.next,
      target = Dfa.noEdge ∨ target < t.states.length := by
    simp only [strayEdge?_eq_none_iff, Vector.mem_toList_iff, or_iff_not_imp_left, ne_eq]
  have hdistinct : ∀ {states}, List.Forall₂ StoredState.Becomes t.states states →
      ((states.map Dfa.State.origin).Nodup ↔
        t.states.Pairwise fun s s' => s.sortedOrigin ≠ s'.sortedOrigin) := by
    intro states hbecomes
    rw [StoredState.map_eq_of_becomes (fun _ _ h => h.origin) hbecomes, List.Nodup,
      List.pairwise_map]
  constructor
  · rintro ⟨d, h⟩
    obtain ⟨hstart, hstray, _, hbecomes, hnodup⟩ := toDfa_eq_ok_iff.mp h
    exact ⟨List.ne_nil_of_length_pos (Nat.zero_lt_of_lt hstart), hstart,
      exists_becomes_iff.mp ⟨_, hbecomes⟩, (hdistinct hbecomes).mp hnodup, hedges.mp hstray⟩
  · intro h
    obtain ⟨states, hbecomes⟩ := exists_becomes_iff.mpr h.paired
    exact ⟨⟨states.toArray, t.start⟩, toDfa_eq_ok_iff.mpr ⟨h.start_lt, hedges.mpr h.edges, rfl,
      hbecomes, (hdistinct hbecomes).mpr h.distinct⟩⟩

/-! ## What becomes of it -/

/-- The result has the stored states in order, and each is found by its origin. -/
theorem copies_of_toDfa (h : t.toDfa = .ok d) :
    d.size = t.states.length ∧ d.start = t.start ∧
      ∀ i s, t.states[i]? = some s → ∃ state, d.state? i = some state ∧ s.CopiedAs state ∧
        d.idOf? state.origin = some i := by
  obtain ⟨_, _, hstart, hbecomes, hnodup⟩ := toDfa_eq_ok_iff.mp h
  have hsize : d.size = t.states.length := hbecomes.length_eq.symm
  refine ⟨hsize, hstart, fun i s hs => ?_⟩
  obtain ⟨hi, rfl⟩ := List.getElem?_eq_some_iff.mp hs
  have hid : i < d.size := hsize ▸ hi
  have horigin := (Dfa.nodup_origins_iff.mp hnodup).idOf?_eq_some_iff.mpr ⟨hid, rfl⟩
  obtain ⟨state, hstate⟩ := Dfa.exists_state? hid
  rw [Dfa.originOf, hstate, Option.elim_some] at horigin
  obtain ⟨_, rfl⟩ := Array.getElem?_eq_some_iff.mp hstate
  exact ⟨_, hstate, (hbecomes.get hi hid).copiedAs, horigin⟩

/-! ## The order of origins -/

/-- The stored table with all origins in order. -/
def sorted (t : StoredTable) : StoredTable :=
  { t with states := t.states.map StoredState.sorted }

/-- The two differ in the order of their origins at most. -/
structure Reordered (t t' : StoredTable) : Prop where
  start : t.start = t'.start
  states : List.Forall₂ StoredState.Reordered t.states t'.states

theorem Reordered.sorted_eq (h : t.Reordered t') : t.sorted = t'.sorted := by
  have hstates : ∀ {ss ss'}, List.Forall₂ StoredState.Reordered ss ss' →
      ss.map StoredState.sorted = ss'.map StoredState.sorted := by
    intro ss ss' hss
    induction hss with
    | nil => rfl
    | cons hstate _ ih => rw [List.map_cons, List.map_cons, hstate.sorted_eq, ih]
  rw [sorted, sorted, h.start, hstates h.states]

theorem insertState_sorted (d : Dfa) (stored : StoredState × Nat) :
    insertState d (stored.map StoredState.sorted id) = insertState d stored := by
  unfold insertState
  simp only [Prod.map, StoredState.sortedOrigin_sorted]
  rfl

theorem writeRow_sorted (size : Nat) (d : Dfa) (stored : StoredState × Nat) :
    writeRow size d (stored.map StoredState.sorted id) = writeRow size d stored :=
  rfl

/-- Loading does not depend on the order of origins. -/
theorem toDfa_sorted (t : StoredTable) : t.sorted.toDfa = t.toDfa := by
  unfold toDfa
  simp only [sorted, List.length_map, List.zipIdx_map, List.foldlM_map, insertState_sorted,
    writeRow_sorted]

/-- Loading accepts the valid tables and no others. The result has the stored start and
a copy of each stored state under its position, where it is found by its origin. Neither
the result nor the refusal depends on the order of ids in an origin. -/
theorem toDfa_loads_valid (t : StoredTable) :
    ((∃ d, t.toDfa = .ok d) ↔ t.Valid) ∧
    (∀ d, t.toDfa = .ok d → d.size = t.states.length ∧ d.start = t.start ∧
      ∀ i s, t.states[i]? = some s → ∃ state, d.state? i = some state ∧ s.CopiedAs state ∧
        d.idOf? state.origin = some i) ∧
    ∀ t', t.Reordered t' → t'.toDfa = t.toDfa := by
  refine ⟨exists_toDfa_iff, fun d h => copies_of_toDfa h, fun t' h => ?_⟩
  rw [← toDfa_sorted t', ← toDfa_sorted t, h.sorted_eq]

/-- Two states, one of them with a tag, that both lead to the second one over every
symbol. -/
def funnel (origin : List Nat) : StoredTable where
  start := 1
  states := [⟨origin, Vector.replicate 95 1, some "a", some 1⟩,
    ⟨[5], Vector.replicate 95 1, none, none⟩]

/-- The table is accepted with either order of the first origin, and both times its
first state is found by what is in order. -/
theorem toDfa_loads_valid_funnel : (funnel [7, 3]).Valid ∧
    (funnel [7, 3]).Reordered (funnel [3, 7]) ∧
    ∃ d state, (funnel [7, 3]).toDfa = .ok d ∧ (funnel [3, 7]).toDfa = .ok d ∧
      d.state? 0 = some state ∧ state.origin.Pairwise (· ≤ ·) ∧
      d.idOf? state.origin = some 0 := by
  have hvalid : (funnel [7, 3]).Valid := by
    refine ⟨by decide, by decide, by decide, ?_, ?_⟩
    · simp [funnel, StoredState.sortedOrigin, List.mergeSort]
    · simp [funnel]
  have hreordered : (funnel [7, 3]).Reordered (funnel [3, 7]) :=
    ⟨rfl, .cons ⟨.swap 3 7 [], rfl, rfl, rfl⟩ (.cons ⟨.refl _, rfl, rfl, rfl⟩ .nil)⟩
  obtain ⟨haccepts, hcopies, hany⟩ := toDfa_loads_valid (funnel [7, 3])
  obtain ⟨d, hd⟩ := haccepts.mpr hvalid
  obtain ⟨_, _, hstates⟩ := hcopies d hd
  obtain ⟨state, hstate, hcopied, hfound⟩ := hstates 0 _ rfl
  exact ⟨hvalid, hreordered, d, state, hd, (hany _ hreordered).trans hd, hstate,
    hcopied.ascending, hfound⟩

end StoredTable

end Munch
