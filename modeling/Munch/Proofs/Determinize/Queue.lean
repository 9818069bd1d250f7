import Munch.Proofs.Determinize.Numbering

/-!
# The construction as a search with a queue

`Nfa.saturate` explores the states of its table by their numbers. Here the same search
is run with a queue: `Nfa.dequeue?` takes the first state that waits, explores it, and
queues the states that are new, and `Nfa.Drains` is a run until no state waits. At
every point the states that wait are those from the next number on
(`Worklist.WaitsFrom`), so the run takes each state from the queue once, in order, and
leaves the table of `RootedNfa.determinize`. That it ends is due to the bound on the
number of subsets.

The table is complete: an edge is missing only where the symbol leads nowhere
(`TableOf.step_eq_none_iff`), and no state stands for the empty set, which makes one
state less than there are subsets (`Tabulates.size_lt`).
-/

namespace Munch

/-- A search under way: its table, and the states that wait to be explored, first found
first. -/
structure Worklist where
  table : Dfa
  queue : List Nat

/-- The states from number `k` on wait, and no others. -/
structure Worklist.WaitsFrom (s : Worklist) (k : Nat) : Prop where
  le : k ≤ s.table.size
  queue : s.queue = List.range' k (s.table.size - k)

namespace Nfa

variable {n : Nfa} {s : Worklist} {d : Dfa} {k : Nat}

/-- Adds the edge of one symbol to the state that is explored. The target waits if it is
new. -/
def visitSymbol (n : Nfa) (current : Nat) (s : Worklist) (b : UInt8) : Worklist :=
  if n.move (s.table.originOf current) b = [] then s
  else
    let set := n.closure (n.move (s.table.originOf current) b)
    let found := s.table.insert set (n.bestStamp set)
    { table := found.dfa.link current b (some found.id)
      queue := if found.fresh then s.queue ++ [found.id] else s.queue }

/-- Takes the first state from the queue and explores it. -/
def dequeue? (n : Nfa) (s : Worklist) : Option (Nat × Worklist) :=
  match s.queue with
  | [] => none
  | current :: rest =>
    some (current, Alphabet.symbols.foldl (n.visitSymbol current) { s with queue := rest })

/-- Run until no state waits, the search takes the listed states from the queue, in this
order, and leaves the table. -/
inductive Drains (n : Nfa) : Worklist → List Nat → Dfa → Prop
  | done {s : Worklist} : n.dequeue? s = none → Drains n s [] s.table
  | next {s s' : Worklist} {id : Nat} {ids : List Nat} {d : Dfa} :
    n.dequeue? s = some (id, s') → Drains n s' ids d → Drains n s (id :: ids) d

/-! ## The queue holds what is not explored -/

theorem table_visitSymbol (n : Nfa) (current : Nat) (s : Worklist) (b : UInt8) :
    (n.visitSymbol current s b).table = n.exploreSymbol current s.table b := by
  unfold visitSymbol
  by_cases hmove : n.move (s.table.originOf current) b = []
  · rw [if_pos hmove, exploreSymbol_of_move_eq_nil hmove]
  · rw [if_neg hmove, exploreSymbol_of_move_ne_nil hmove]
    rfl

/-- A state that is appended waits behind all others. -/
theorem waitsFrom_visitSymbol (h : s.WaitsFrom k) (current : Nat) (b : UInt8) :
    (n.visitSymbol current s b).WaitsFrom k := by
  unfold visitSymbol
  split
  · exact h
  · have hle := h.le
    rcases s.table.insert_cases (n.closure (n.move (s.table.originOf current) b))
      (n.bestStamp (n.closure (n.move (s.table.originOf current) b))) with
      ⟨id, _, _, heq⟩ | ⟨_, heq⟩
    · simp only [heq]
      refine ⟨?_, ?_⟩
      · rw [Dfa.size_link]
        exact hle
      · rw [Dfa.size_link]
        exact h.queue
    · simp only [heq]
      refine ⟨?_, ?_⟩
      · rw [Dfa.size_link, Dfa.size_append]
        exact Nat.le_succ_of_le hle
      · rw [Dfa.size_link, Dfa.size_append, Nat.succ_sub hle, List.range'_1_concat, ← h.queue,
          Nat.add_sub_cancel' hle]
        rfl

theorem waitsFrom_foldl_visitSymbol (h : s.WaitsFrom k) (current : Nat) (bs : List UInt8) :
    (bs.foldl (n.visitSymbol current) s).WaitsFrom k := by
  induction bs generalizing s with
  | nil => exact h
  | cons b bs ih => exact ih (waitsFrom_visitSymbol h current b)

/-- One turn takes the next state and leaves those behind it waiting. -/
theorem dequeue?_of_waitsFrom (h : s.WaitsFrom k) (hk : k < s.table.size) :
    ∃ s', n.dequeue? s = some (k, s') ∧ s'.table = n.explore s.table k ∧ s'.WaitsFrom (k + 1) := by
  have hqueue : s.queue = k :: List.range' (k + 1) (s.table.size - (k + 1)) := by
    rw [h.queue, ← List.range'_succ]
    congr 1
    omega
  have hrest : Worklist.WaitsFrom ⟨s.table, List.range' (k + 1) (s.table.size - (k + 1))⟩ (k + 1) :=
    ⟨hk, rfl⟩
  refine ⟨_, ?_, ?_, waitsFrom_foldl_visitSymbol (n := n) hrest k Alphabet.symbols⟩
  · rw [dequeue?, hqueue]
  · exact (List.foldl_hom Worklist.table fun s b => (n.table_visitSymbol k s b).symm).symm

/-- No state waits once all are explored. -/
theorem drains_of_size_le (h : s.WaitsFrom k) (hk : s.table.size ≤ k) : n.Drains s [] s.table := by
  apply Drains.done
  rw [dequeue?, h.queue, Nat.sub_eq_zero_of_le hk, List.range'_zero]

/-- The queue runs dry after the states from `k` on were taken from it, each once. What
bounds the run is the number of subsets that are not explored yet. -/
theorem Tabulates.drains (h : n.Tabulates s.table) {rounds : Nat} (hs : s.WaitsFrom k)
    (hrounds : 2 ^ n.size ≤ rounds + k) :
    let d := n.saturate rounds k s.table
    ∃ m, d.size = k + m ∧ n.Drains s (List.range' k m) d := by
  induction rounds generalizing s k with
  | zero =>
    have hk : s.table.size ≤ k := Nat.le_trans h.size_le (by omega)
    exact ⟨0, Nat.le_antisymm hk hs.le, drains_of_size_le hs hk⟩
  | succ rounds ih =>
    unfold Nfa.saturate
    by_cases hk : k < s.table.size
    · rw [if_pos hk]
      obtain ⟨s', hturn, htable, hs'⟩ := dequeue?_of_waitsFrom (n := n) hs hk
      obtain ⟨h', _, _⟩ := h.explore hk
      rw [← htable] at h' ⊢
      obtain ⟨m, hsize, hdrains⟩ := ih h' hs' (by omega)
      refine ⟨m + 1, by omega, ?_⟩
      rw [List.range'_succ]
      exact .next hturn hdrains
    · rw [if_neg hk]
      have hk := Nat.le_of_not_lt hk
      exact ⟨0, Nat.le_antisymm hk hs.le, drains_of_size_le hs hk⟩

/-! ## The table is complete -/

/-- If no state stands for the empty set, there is one state less than subsets. -/
theorem Tabulates.size_lt (h : n.Tabulates d) (hne : ∀ i < d.size, d.originOf i ≠ []) :
    d.size ≤ 2 ^ n.size - 1 := by
  have hcard : (Finset.range d.size).card ≤ ((Finset.range n.size).powerset.erase ∅).card := by
    apply Finset.card_le_card_of_injOn _ _ h.injOn_toFinset
    intro i hi
    have hi := Finset.mem_range.mp hi
    rw [Finset.mem_coe, Finset.mem_erase]
    refine ⟨?_, h.toFinset_mem_powerset hi⟩
    rw [ne_eq, List.toFinset_eq_empty_iff]
    exact hne i hi
  rw [Finset.card_erase_of_mem (Finset.empty_mem_powerset _)] at hcard
  simpa only [Finset.card_range, Finset.card_powerset] using hcard

/-- A symbol has no edge exactly if it leads nowhere. -/
theorem TableOf.step_eq_none_iff {root : Nat} (h : n.TableOf root d) {id : Nat}
    (hid : id < d.size) {b : UInt8} (hb : b ∈ Alphabet.symbols) :
    d.step id b = none ↔ n.move (d.originOf id) b = [] := by
  constructor
  · intro hnone
    by_contra hmove
    obtain ⟨target, hstep⟩ := h.explored id hid b hb hmove
    rw [hnone] at hstep
    cases hstep
  · intro hmove
    cases hstep : d.step id b with
    | none => rfl
    | some target => exact absurd hmove (h.step id b target hstep).2.1

end Nfa

namespace RootedNfa

open Nfa

/-- In a closed arena no state stands for the empty set. -/
theorem originOf_determinize_ne_nil {r : RootedNfa} (hroot : r.root < r.nfa.size)
    (hn : r.nfa.Closed) {id : Nat} (hid : id < r.determinize.size) :
    r.determinize.originOf id ≠ [] := by
  have htable := r.determinize_tableOf
  have hstart : r.determinize.originOf 0 ≠ [] := by
    rw [← start_determinize, htable.start_origin]
    exact List.ne_nil_of_mem (mem_closure.mpr ⟨hroot, r.root, List.mem_singleton_self _, .refl⟩)
  obtain ⟨w, hw⟩ := r.determinize_breadthFirst.exists_accessWord hid
  exact htable.walk?_origin_ne_nil hn hstart hw.walk?

/-- The search ends with a complete table. The queue that begins with the start runs dry
after every state was taken from it once, in order; there are fewer states than
subsets, each with a set of its own; and an edge is missing only where its symbol leads
nowhere, and leads otherwise to the state of the closed set of its targets. -/
theorem determinize_drains (r : RootedNfa) (hroot : r.root < r.nfa.size) (hn : r.nfa.Closed) :
    ∃ d, r.determinize? = some d ∧
      r.nfa.Drains ⟨r.seed, [r.seed.start]⟩ (List.range d.size) d ∧
      d.size ≤ 2 ^ r.nfa.size - 1 ∧
      (∀ id < d.size, d.originOf id ≠ [] ∧ (d.originOf id).Pairwise (· < ·)) ∧
      (∀ i < d.size, ∀ j < d.size, d.originOf i = d.originOf j → i = j) ∧
      ∀ id < d.size, ∀ b : UInt8, 32 ≤ b.toNat → b.toNat ≤ 126 →
        (d.step id b = none ↔ r.nfa.move (d.originOf id) b = []) ∧
        ∀ target, d.step id b = some target → target < d.size ∧
          d.originOf target = r.nfa.closure (r.nfa.move (d.originOf id) b) := by
  have htable := r.determinize_tableOf
  have hne : ∀ id < r.determinize.size, r.determinize.originOf id ≠ [] :=
    fun id hid => originOf_determinize_ne_nil hroot hn hid
  refine ⟨r.determinize, determinize?_eq_determinize hroot hn, ?_, htable.size_lt hne, ?_,
    htable.distinct, ?_⟩
  · have hwaits : Worklist.WaitsFrom ⟨r.seed, [r.seed.start]⟩ 0 := by
      refine ⟨Nat.zero_le _, ?_⟩
      rw [size_seed, start_seed]
      rfl
    obtain ⟨m, hsize, hdrains⟩ := r.seed_tabulates.drains hwaits
      (show 2 ^ r.nfa.size ≤ Nat.pow 2 r.nfa.size + 0 from Nat.le_refl _)
    rw [Nat.zero_add] at hsize
    rw [List.range_eq_range', determinize, hsize]
    exact hdrains
  · intro id hid
    obtain ⟨seeds, hseeds⟩ := htable.closed id hid
    exact ⟨hne id hid, hseeds ▸ r.nfa.pairwise_closure seeds⟩
  · intro id hid b hlo hhi
    refine ⟨htable.step_eq_none_iff hid (Alphabet.mem_symbols.mpr ⟨hlo, hhi⟩), ?_⟩
    intro target hstep
    obtain ⟨htarget, _, horigin⟩ := htable.step id b target hstep
    exact ⟨htarget, horigin⟩

/-- The cycle does not keep the search from ending. From the start the letter leads to a
state of both tokens, and another letter leads nowhere. -/
theorem determinize_drains_rivals : rivals.root < rivals.nfa.size ∧ rivals.nfa.Closed ∧
    ∃ d target, rivals.determinize? = some d ∧
      rivals.nfa.Drains ⟨rivals.seed, [0]⟩ (List.range d.size) d ∧ d.size ≤ 15 ∧
      d.step d.start 98 = none ∧ d.step d.start 97 = some target ∧
      1 ∈ d.originOf target ∧ 2 ∈ d.originOf target := by
  have hroot : rivals.root < rivals.nfa.size := by decide
  have hn : rivals.nfa.Closed := by decide
  have htable := rivals.determinize_tableOf
  obtain ⟨d, hd, hdrains, hsize, _, _, hedges⟩ := determinize_drains rivals hroot hn
  obtain rfl := Option.some.inj ((determinize?_eq_determinize hroot hn).symm.trans hd)
  rw [start_seed] at hdrains
  have hother := hedges _ htable.start_lt 98 (by decide) (by decide)
  have hletter := hedges _ htable.start_lt 97 (by decide) (by decide)
  rw [htable.start_origin] at hother hletter
  have hnowhere : rivals.nfa.move (rivals.nfa.closure [rivals.root]) 98 = [] := by
    apply List.eq_nil_iff_forall_not_mem.mpr
    intro q hq
    obtain ⟨p, _, hedge⟩ := mem_move.mp hq
    rcases p with _ | _ | _ | _ | p <;> simp [rivals, edgesOf, state?] at hedge
  have hshort : 2 ∈ rivals.nfa.advance (rivals.nfa.closure [rivals.root]) 97 :=
    mem_advance.mpr ⟨by decide, 3, mem_closure.mpr ⟨hroot, 3, List.mem_singleton_self _, .refl⟩,
      2, List.mem_singleton_self _, .refl⟩
  have hlong : 1 ∈ rivals.nfa.advance (rivals.nfa.closure [rivals.root]) 97 :=
    mem_advance.mpr ⟨by decide, 0, mem_closure.mpr ⟨by decide, 3, List.mem_singleton_self _,
      .single (List.mem_singleton_self _)⟩, 1, List.mem_singleton_self _, .refl⟩
  cases hstep : rivals.determinize.step rivals.determinize.start 97 with
  | none =>
    exact absurd (hletter.1.mp hstep) (move_ne_nil_of_advance (List.ne_nil_of_mem hshort))
  | some target =>
    obtain ⟨_, horigin⟩ := hletter.2 target hstep
    refine ⟨hroot, hn, _, target, hd, hdrains, hsize, hother.1.mpr hnowhere, hstep, ?_, ?_⟩
    · rw [horigin]
      exact hlong
    · rw [horigin]
      exact hshort

end RootedNfa

end Munch
