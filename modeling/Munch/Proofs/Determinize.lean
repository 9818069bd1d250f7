import Mathlib.Data.Finset.Powerset
import Munch.Determinize
import Munch.Proofs.Dfa.View
import Munch.Proofs.Nfa.Path
import Munch.Proofs.Nfa.Stamp

/-!
# The subset construction is right

`RootedNfa.determinize` grows a table by exploring its states one after the
other. `Nfa.Tabulates` is the invariant of the growth: all that a half-built
table says about the automaton is true. One explored symbol keeps it
(`Tabulates.exploreSymbol`), so a round keeps it, so the whole search keeps it
(`Tabulates.saturate`). As origins are distinct subsets of the arena there are
at most `2 ^ size` of them, and the search never stops for want of rounds.

The end result is a `Nfa.TableOf` the automaton and its root, and walking over a
word in such a table is running the automaton over it (`TableOf.walk?_start`,
`TableOf.exists_walk?_start`).
-/

namespace Munch.Nfa

variable {n : Nfa} {d : Dfa}

/-! ## The invariant -/

/-- All that the table says about the automaton is true: each state stands for a
closed set of its own and has the tag of that set, and each edge leads to the
state of the set that the symbol leads to. -/
structure Tabulates (n : Nfa) (d : Dfa) : Prop where
  distinct : ∀ i < d.size, ∀ j < d.size, d.originOf i = d.originOf j → i = j
  closed : ∀ i < d.size, ∃ seeds, d.originOf i = n.closure seeds
  accept : ∀ i < d.size, d.acceptOf i = n.bestStamp (d.originOf i)
  step : ∀ i b target, d.step i b = some target →
    target < d.size ∧ n.move (d.originOf i) b ≠ [] ∧
      d.originOf target = n.advance (d.originOf i) b

/-- Every symbol that leads somewhere from the set of a state has its edge. -/
def Explored (n : Nfa) (d : Dfa) (id : Nat) : Prop :=
  ∀ b ∈ Alphabet.symbols, n.move (d.originOf id) b ≠ [] → ∃ target, d.step id b = some target

theorem Explored.of_extends {d' : Dfa} {id : Nat} (h : n.Explored d id) (hid : id < d.size)
    (he : d.Extends d') : n.Explored d' id := by
  intro b hb hmove
  rw [he.origin id hid] at hmove
  obtain ⟨target, htarget⟩ := h b hb hmove
  exact ⟨target, he.step id b target htarget⟩

/-! ## One symbol -/

theorem Tabulates.append (h : n.Tabulates d) {set : List Nat}
    (hset : ∃ seeds, set = n.closure seeds) (hnew : ∀ id < d.size, d.originOf id ≠ set) :
    n.Tabulates (d.append ⟨set, Dfa.emptyRow, n.bestStamp set⟩) := by
  constructor
  · exact Dfa.Distinct.append h.distinct hnew
  · intro i hi
    rw [Dfa.size_append, Nat.lt_succ_iff_lt_or_eq] at hi
    rcases hi with hi | rfl
    · rw [Dfa.originOf_append_of_lt _ hi]
      exact h.closed i hi
    · rw [Dfa.originOf_append_size]
      exact hset
  · intro i hi
    rw [Dfa.size_append, Nat.lt_succ_iff_lt_or_eq] at hi
    rcases hi with hi | rfl
    · rw [Dfa.originOf_append_of_lt _ hi, Dfa.acceptOf_append_of_lt _ hi]
      exact h.accept i hi
    · rw [Dfa.originOf_append_size, Dfa.acceptOf_append_size]
  · intro i b target hstep
    rw [Dfa.step_append_emptyRow] at hstep
    -- the new row is empty, so the edge is an old one, between old states
    obtain ⟨ht, hmove, horigin⟩ := h.step i b target hstep
    have hi := (Dfa.of_step_eq_some hstep).1
    rw [Dfa.size_append, Dfa.originOf_append_of_lt _ hi, Dfa.originOf_append_of_lt _ ht]
    exact ⟨Nat.lt_succ_of_lt ht, hmove, horigin⟩

theorem extends_append (d : Dfa) (set : List Nat) (accept : Option Tag) :
    d.Extends (d.append ⟨set, Dfa.emptyRow, accept⟩) := by
  refine ⟨?_, rfl, fun id hid => Dfa.originOf_append_of_lt _ hid, ?_⟩
  · rw [Dfa.size_append]
    exact Nat.le_succ _
  · intro id b target hstep
    rw [Dfa.step_append_emptyRow]
    exact hstep

/-- Inserting a closed set gives a state with that origin. -/
theorem Tabulates.insert (h : n.Tabulates d) {set : List Nat}
    (hset : ∃ seeds, set = n.closure seeds) :
    let found := d.insert set (n.bestStamp set)
    n.Tabulates found.dfa ∧ d.Extends found.dfa ∧ found.id < found.dfa.size ∧
      found.dfa.originOf found.id = set := by
  rcases d.insert_cases set (n.bestStamp set) with ⟨id, hid, horigin, heq⟩ | ⟨hnew, heq⟩
  · rw [heq]
    exact ⟨h, .refl d, hid, horigin⟩
  · rw [heq]
    refine ⟨h.append hset hnew, extends_append d _ _, ?_, Dfa.originOf_append_size _ _⟩
    rw [Dfa.size_append]
    exact Nat.lt_succ_self _

/-- Writing a true edge keeps all that was written before: an edge in its place
leads to the same set, hence to the same state. -/
theorem Tabulates.link (h : n.Tabulates d) {current target : Nat} {b : UInt8}
    (hcur : current < d.size) (hb : b ∈ Alphabet.symbols) (htarget : target < d.size)
    (hmove : n.move (d.originOf current) b ≠ [])
    (horigin : d.originOf target = n.advance (d.originOf current) b) :
    n.Tabulates (d.link current b (some target)) ∧ d.Extends (d.link current b (some target)) := by
  constructor
  · constructor
    -- origins and tags are not touched
    · intro i hi j hj hij
      rw [Dfa.size_link] at hi hj
      rw [Dfa.originOf_link, Dfa.originOf_link] at hij
      exact h.distinct i hi j hj hij
    · intro i hi
      rw [Dfa.size_link] at hi
      rw [Dfa.originOf_link]
      exact h.closed i hi
    · intro i hi
      rw [Dfa.size_link] at hi
      rw [Dfa.originOf_link, Dfa.acceptOf_link]
      exact h.accept i hi
    · intro i c t hstep
      rw [Dfa.step_link hcur hb] at hstep
      rw [Dfa.size_link, Dfa.originOf_link, Dfa.originOf_link]
      split at hstep
      · rename_i hic
        obtain ⟨rfl, rfl⟩ := hic
        obtain rfl := Option.some.inj hstep
        exact ⟨htarget, hmove, horigin⟩
      · exact h.step i c t hstep
  · refine ⟨?_, Dfa.start_link .., fun id _ => Dfa.originOf_link .., ?_⟩
    · rw [Dfa.size_link]
    · intro i c t hstep
      rw [Dfa.step_link hcur hb]
      split
      · rename_i hic
        obtain ⟨rfl, rfl⟩ := hic
        -- the edge that is overwritten led to a state with the same origin
        obtain ⟨ht, _, heq⟩ := h.step _ _ _ hstep
        rw [h.distinct target htarget t ht (horigin.trans heq.symm)]
      · exact hstep

theorem exploreSymbol_of_move_eq_nil {current : Nat} {b : UInt8}
    (h : n.move (d.originOf current) b = []) : n.exploreSymbol current d b = d := by
  unfold exploreSymbol
  rw [h]

theorem exploreSymbol_of_move_ne_nil {current : Nat} {b : UInt8}
    (h : n.move (d.originOf current) b ≠ []) :
    n.exploreSymbol current d b =
      let set := n.advance (d.originOf current) b
      let found := d.insert set (n.bestStamp set)
      found.dfa.link current b (some found.id) := by
  unfold exploreSymbol advance
  split
  · rename_i hnil
    exact absurd hnil h
  · rfl

/-- One symbol keeps the invariant and what was there, and its own edge is there
afterwards if it leads anywhere. -/
theorem Tabulates.exploreSymbol (h : n.Tabulates d) {current : Nat} {b : UInt8}
    (hcur : current < d.size) (hb : b ∈ Alphabet.symbols) :
    n.Tabulates (n.exploreSymbol current d b) ∧ d.Extends (n.exploreSymbol current d b) ∧
      (n.move (d.originOf current) b ≠ [] →
        ∃ target, (n.exploreSymbol current d b).step current b = some target) := by
  by_cases hmove : n.move (d.originOf current) b = []
  · rw [exploreSymbol_of_move_eq_nil hmove]
    exact ⟨h, .refl d, fun hne => absurd hmove hne⟩
  · rw [exploreSymbol_of_move_ne_nil hmove]
    let set := n.advance (d.originOf current) b
    let found := d.insert set (n.bestStamp set)
    obtain ⟨hfound, hext, hid, horigin⟩ :=
      h.insert (show ∃ seeds, set = n.closure seeds from ⟨_, rfl⟩)
    -- the insertion may have appended a state, but `current` is where it was
    have hcur' := Nat.lt_of_lt_of_le hcur hext.size_le
    have hsame := hext.origin current hcur
    obtain ⟨hlink, hext'⟩ := hfound.link hcur' hb hid (by rw [hsame]; exact hmove)
      (by rw [hsame]; exact horigin)
    refine ⟨hlink, hext.trans hext', fun _ => ⟨found.id, ?_⟩⟩
    show (found.dfa.link current b (some found.id)).step current b = some found.id
    rw [Dfa.step_link hcur' hb, if_pos ⟨rfl, rfl⟩]

/-! ## One state, and all states -/

theorem Tabulates.foldl_exploreSymbol (h : n.Tabulates d) {current : Nat}
    (hcur : current < d.size) {bs : List UInt8} (hbs : ∀ b ∈ bs, b ∈ Alphabet.symbols) :
    let d' := bs.foldl (n.exploreSymbol current) d
    n.Tabulates d' ∧ d.Extends d' ∧
      ∀ b ∈ bs, n.move (d.originOf current) b ≠ [] → ∃ target, d'.step current b = some target := by
  induction bs generalizing d with
  | nil => exact ⟨h, .refl d, fun b hb => absurd hb (List.not_mem_nil)⟩
  | cons b bs ih =>
    obtain ⟨hb, hrest⟩ := List.forall_mem_cons.mp hbs
    obtain ⟨h₁, hext₁, hedge⟩ := h.exploreSymbol hcur hb
    obtain ⟨h₂, hext₂, hedges⟩ := ih h₁ (Nat.lt_of_lt_of_le hcur hext₁.size_le) hrest
    refine ⟨h₂, hext₁.trans hext₂, ?_⟩
    intro c hc hmove
    rcases List.mem_cons.mp hc with rfl | hc
    · obtain ⟨target, htarget⟩ := hedge hmove
      exact ⟨target, hext₂.step _ _ _ htarget⟩
    · rw [← hext₁.origin current hcur] at hmove
      exact hedges c hc hmove

/-- Exploring a state keeps the invariant and leaves the state explored. -/
theorem Tabulates.explore (h : n.Tabulates d) {current : Nat} (hcur : current < d.size) :
    n.Tabulates (n.explore d current) ∧ d.Extends (n.explore d current) ∧
      n.Explored (n.explore d current) current := by
  unfold Nfa.explore
  obtain ⟨h', hext, hedges⟩ := h.foldl_exploreSymbol hcur (fun b hb => hb)
  refine ⟨h', hext, ?_⟩
  intro b hb hmove
  rw [hext.origin current hcur] at hmove
  exact hedges b hb hmove

/-- Closures with the same members are the same list. -/
theorem closure_eq_of_mem_iff {m : Nfa} (hsize : n.size = m.size) {seeds seeds' : List Nat}
    (h : ∀ q, q ∈ n.closure seeds ↔ q ∈ m.closure seeds') :
    n.closure seeds = m.closure seeds' := by
  unfold closure IdSet.toList
  rw [show List.range n.size = List.range m.size from congrArg _ hsize]
  apply List.filter_congr
  intro q _
  have hq := h q
  rw [closure, closure, IdSet.mem_toList, IdSet.mem_toList] at hq
  exact Bool.eq_iff_iff.mpr hq

/-- Different states stand for different subsets of the arena. -/
theorem Tabulates.injOn_toFinset (h : n.Tabulates d) :
    Set.InjOn (fun i => (d.originOf i).toFinset) (Finset.range d.size) := by
  intro i hi j hj hij
  have hi := Finset.mem_range.mp hi
  have hj := Finset.mem_range.mp hj
  obtain ⟨seeds, hseeds⟩ := h.closed i hi
  obtain ⟨seeds', hseeds'⟩ := h.closed j hj
  apply h.distinct i hi j hj
  rw [hseeds, hseeds']
  apply closure_eq_of_mem_iff rfl
  intro q
  have hq := congrArg (q ∈ ·) hij
  simpa only [List.mem_toFinset, hseeds, hseeds', eq_iff_iff] using hq

theorem Tabulates.toFinset_mem_powerset (h : n.Tabulates d) {i : Nat} (hi : i < d.size) :
    (d.originOf i).toFinset ∈ (Finset.range n.size).powerset := by
  obtain ⟨seeds, hseeds⟩ := h.closed i hi
  rw [Finset.mem_powerset]
  intro q hq
  rw [List.mem_toFinset, hseeds] at hq
  exact Finset.mem_range.mpr (lt_size_of_mem_closure hq)

/-- A table has at most one state for each subset of the arena. -/
theorem Tabulates.size_le (h : n.Tabulates d) : d.size ≤ 2 ^ n.size := by
  have hcard : (Finset.range d.size).card ≤ (Finset.range n.size).powerset.card :=
    Finset.card_le_card_of_injOn _
      (fun _ hi => h.toFinset_mem_powerset (Finset.mem_range.mp hi)) h.injOn_toFinset
  simpa only [Finset.card_range, Finset.card_powerset] using hcard

/-- The search ends with every state explored, given one round for each subset
that is not explored yet. -/
theorem Tabulates.saturate (h : n.Tabulates d) {rounds current : Nat}
    (hrounds : 2 ^ n.size ≤ rounds + current) (hdone : ∀ i < current, n.Explored d i) :
    let d' := n.saturate rounds current d
    n.Tabulates d' ∧ d.Extends d' ∧ ∀ i < d'.size, n.Explored d' i := by
  induction rounds generalizing current d with
  | zero =>
    -- out of rounds: there are no more states than subsets, so all are behind `current`
    refine ⟨h, .refl d, fun i hi => hdone i ?_⟩
    have := Nat.lt_of_lt_of_le hi h.size_le
    omega
  | succ rounds ih =>
    unfold Nfa.saturate
    by_cases hcur : current < d.size
    · rw [if_pos hcur]
      obtain ⟨h₁, hext₁, hnow⟩ := h.explore hcur
      have hdone₁ : ∀ i < current + 1, n.Explored (n.explore d current) i := by
        intro i hi
        rcases Nat.lt_succ_iff_lt_or_eq.mp hi with hi | rfl
        · exact (hdone i hi).of_extends (Nat.lt_trans hi hcur) hext₁
        · exact hnow
      obtain ⟨h₂, hext₂, hall⟩ := ih h₁ (by omega) hdone₁
      exact ⟨h₂, hext₁.trans hext₂, hall⟩
    · rw [if_neg hcur]
      exact ⟨h, .refl d, fun i hi => hdone i (Nat.lt_of_lt_of_le hi (Nat.le_of_not_lt hcur))⟩

/-! ## Finished tables -/

/-- The table of all sets that words lead to from `root`. -/
structure TableOf (n : Nfa) (root : Nat) (d : Dfa) : Prop extends n.Tabulates d where
  explored : ∀ i < d.size, n.Explored d i
  start_lt : d.start < d.size
  start_origin : d.originOf d.start = n.closure [root]

theorem walk?_cons (d : Dfa) (id : Nat) (b : UInt8) (w : List UInt8) :
    d.walk? id (b :: w) = (d.step id b).bind (d.walk? · w) :=
  List.foldlM_cons

/-- A walk reads printable symbols only. -/
theorem mem_symbols_of_walk? {i j : Nat} {w : List UInt8} (hw : d.walk? i w = some j) :
    ∀ b ∈ w, b ∈ Alphabet.symbols := by
  induction w generalizing i with
  | nil => exact fun b hb => absurd hb (List.not_mem_nil)
  | cons b w ih =>
    rw [walk?_cons, Option.bind_eq_some_iff] at hw
    obtain ⟨target, hstep, hw⟩ := hw
    exact List.forall_mem_cons.mpr ⟨(Dfa.of_step_eq_some hstep).2, ih hw⟩

/-- A walk ends in the state of the set that the word leads to. -/
theorem Tabulates.walk?_eq_some (h : n.Tabulates d) {i j : Nat} {w : List UInt8}
    (hi : i < d.size) (hw : d.walk? i w = some j) :
    j < d.size ∧ d.originOf j = w.foldl n.advance (d.originOf i) := by
  induction w generalizing i with
  | nil =>
    obtain rfl := Option.some.inj hw
    exact ⟨hi, rfl⟩
  | cons b w ih =>
    rw [walk?_cons, Option.bind_eq_some_iff] at hw
    obtain ⟨target, hstep, hw⟩ := hw
    obtain ⟨htarget, _, horigin⟩ := h.step i b target hstep
    obtain ⟨hj, heq⟩ := ih htarget hw
    exact ⟨hj, by rw [heq, horigin, List.foldl_cons]⟩

theorem advance_nil (b : UInt8) : n.advance [] b = [] := by
  apply List.eq_nil_iff_forall_not_mem.mpr
  intro q hq
  obtain ⟨_, p, hp, _⟩ := mem_advance.mp hq
  exact absurd hp (List.not_mem_nil)

theorem foldl_advance_nil (w : List UInt8) : w.foldl n.advance [] = [] := by
  induction w with
  | nil => rfl
  | cons b w ih => rw [List.foldl_cons, advance_nil, ih]

/-- A move to nowhere is what makes a step lead to no state at all. -/
theorem move_ne_nil_of_advance {ids : List Nat} {b : UInt8} (h : n.advance ids b ≠ []) :
    n.move ids b ≠ [] := by
  obtain ⟨q, hq⟩ := List.exists_mem_of_ne_nil _ h
  obtain ⟨_, p, hp, t, hedge, _⟩ := mem_advance.mp hq
  exact List.ne_nil_of_mem (mem_move.mpr ⟨p, hp, hedge⟩)

theorem Closed.advance_ne_nil (hn : n.Closed) {ids : List Nat} {b : UInt8}
    (h : n.move ids b ≠ []) : n.advance ids b ≠ [] := by
  obtain ⟨t, ht⟩ := List.exists_mem_of_ne_nil _ h
  obtain ⟨p, hp, hedge⟩ := mem_move.mp ht
  exact List.ne_nil_of_mem (mem_advance.mpr ⟨hn.edges p _ hedge, p, hp, t, hedge, .refl⟩)

/-- In a finished table a walk goes on for as long as there are states to be in. -/
theorem TableOf.exists_walk? {root : Nat} (h : n.TableOf root d) {i : Nat} {w : List UInt8}
    (hi : i < d.size) (hw : ∀ b ∈ w, b ∈ Alphabet.symbols)
    (hne : w.foldl n.advance (d.originOf i) ≠ []) : ∃ j, d.walk? i w = some j := by
  induction w generalizing i with
  | nil => exact ⟨i, rfl⟩
  | cons b w ih =>
    obtain ⟨hb, hrest⟩ := List.forall_mem_cons.mp hw
    rw [List.foldl_cons] at hne
    -- once the set is empty it stays empty
    have hadvance : n.advance (d.originOf i) b ≠ [] := by
      intro hnil
      rw [hnil, foldl_advance_nil] at hne
      exact hne rfl
    obtain ⟨target, hstep⟩ := h.explored i hi b hb (move_ne_nil_of_advance hadvance)
    obtain ⟨htarget, _, horigin⟩ := h.step i b target hstep
    obtain ⟨j, hj⟩ := ih htarget hrest (by rw [horigin]; exact hne)
    exact ⟨j, by rw [walk?_cons, hstep]; exact hj⟩

/-- In a closed arena no edge of a table leads to the empty set. -/
theorem Tabulates.walk?_origin_ne_nil (h : n.Tabulates d) (hn : n.Closed) {i j : Nat}
    {w : List UInt8} (hi : d.originOf i ≠ []) (hw : d.walk? i w = some j) :
    d.originOf j ≠ [] := by
  induction w generalizing i with
  | nil =>
    obtain rfl := Option.some.inj hw
    exact hi
  | cons b w ih =>
    rw [walk?_cons, Option.bind_eq_some_iff] at hw
    obtain ⟨target, hstep, hw⟩ := hw
    obtain ⟨_, hmove, horigin⟩ := h.step i b target hstep
    exact ih (by rw [horigin]; exact hn.advance_ne_nil hmove) hw

/-- The state that a word leads to from the start stands for the run over it. -/
theorem TableOf.walk?_start {root : Nat} (h : n.TableOf root d) {id : Nat} {w : List UInt8}
    (hw : d.walk? d.start w = some id) :
    id < d.size ∧ (∀ b ∈ w, b ∈ Alphabet.symbols) ∧ d.originOf id = n.run root w ∧
      d.acceptOf id = n.bestStamp (n.run root w) := by
  obtain ⟨hid, horigin⟩ := h.walk?_eq_some h.start_lt hw
  rw [h.start_origin] at horigin
  exact ⟨hid, mem_symbols_of_walk? hw, horigin, by rw [h.accept id hid, horigin]; rfl⟩

/-- A word over the alphabet that leads anywhere is walked. -/
theorem TableOf.exists_walk?_start {root : Nat} (h : n.TableOf root d) {w : List UInt8}
    (hb : ∀ b ∈ w, b ∈ Alphabet.symbols) (hne : n.run root w ≠ []) :
    ∃ id, d.walk? d.start w = some id := by
  apply h.exists_walk? h.start_lt hb
  rw [h.start_origin]
  exact hne

end Munch.Nfa

namespace Munch.RootedNfa

open Nfa

theorem seed_eq (r : RootedNfa) :
    r.seed = Dfa.empty.append ⟨r.nfa.closure [r.root], Dfa.emptyRow,
      r.nfa.bestStamp (r.nfa.closure [r.root])⟩ := by
  unfold seed
  rcases Dfa.empty.insert_cases (r.nfa.closure [r.root])
    (r.nfa.bestStamp (r.nfa.closure [r.root])) with ⟨id, hid, _⟩ | ⟨_, heq⟩
  · exact absurd hid (Nat.not_lt_zero id)
  · simp only [heq]

theorem seed_tabulates (r : RootedNfa) : r.nfa.Tabulates r.seed := by
  have hempty : r.nfa.Tabulates Dfa.empty := by
    refine ⟨fun i hi => absurd hi (Nat.not_lt_zero i), fun i hi => absurd hi (Nat.not_lt_zero i),
      fun i hi => absurd hi (Nat.not_lt_zero i), ?_⟩
    intro i b target hstep
    exact absurd (Dfa.of_step_eq_some hstep).1 (Nat.not_lt_zero i)
  exact (hempty.insert ⟨_, rfl⟩).1

theorem size_seed (r : RootedNfa) : r.seed.size = 1 := by
  rw [seed_eq, Dfa.size_append]
  rfl

theorem start_seed (r : RootedNfa) : r.seed.start = 0 := by
  rw [seed_eq]
  rfl

/-- The search keeps what it begins with and ends with every state explored. -/
theorem seed_saturate (r : RootedNfa) : r.nfa.Tabulates r.determinize ∧
    r.seed.Extends r.determinize ∧ ∀ i < r.determinize.size, r.nfa.Explored r.determinize i :=
  r.seed_tabulates.saturate (show 2 ^ r.nfa.size ≤ Nat.pow 2 r.nfa.size + 0 from Nat.le_refl _)
    (fun i hi => absurd hi (Nat.not_lt_zero i))

theorem start_determinize (r : RootedNfa) : r.determinize.start = 0 := by
  obtain ⟨_, hext, _⟩ := r.seed_saturate
  rw [hext.start, start_seed]

/-- The subset construction ends with the table of the automaton. -/
theorem determinize_tableOf (r : RootedNfa) : r.nfa.TableOf r.root r.determinize := by
  obtain ⟨htab, hext, hall⟩ := r.seed_saturate
  have horigin : r.seed.originOf 0 = r.nfa.closure [r.root] := by
    rw [seed_eq]
    exact Dfa.originOf_append_size Dfa.empty _
  have hsize := r.size_seed
  refine ⟨htab, hall, ?_, ?_⟩
  · rw [start_determinize]
    exact Nat.lt_of_lt_of_le (by omega) hext.size_le
  · rw [start_determinize, hext.origin 0 (by omega), horigin]

theorem determinize_closed (r : RootedNfa) : r.determinize.Closed :=
  fun id b target hstep => (r.determinize_tableOf.step id b target hstep).1

/-- In a closed arena the subset construction visits no missing state. -/
theorem determinize?_eq_determinize {r : RootedNfa} (hroot : r.root < r.nfa.size)
    (hn : r.nfa.Closed) : r.determinize? = some r.determinize := by
  have hintact : ∀ q, r.nfa.intact q = true := by
    intro q
    unfold intact
    rw [Bool.and_eq_true, List.all_eq_true, List.all_eq_true]
    refine ⟨fun t ht => has_iff.mpr (hn.epsilon q t ht), fun e he => ?_⟩
    rw [Bool.or_eq_true]
    exact .inr (has_iff.mpr (hn.edges q e he))
  unfold determinize?
  rw [if_pos]
  rw [Bool.and_eq_true, Array.all_eq_true_iff_forall_mem]
  refine ⟨has_iff.mpr hroot, fun s _ => ?_⟩
  rw [List.all_eq_true]
  exact fun q _ => hintact q

/-- Reading in the table is simulating the automaton. A word is walked exactly if
it is over the alphabet and the automaton can be somewhere after it; the state
at the end stands for all the states that the automaton can be in, and its tag
is the stamp that prevails among them. -/
theorem determinize_simulates (r : RootedNfa) (hroot : r.root < r.nfa.size)
    (hn : r.nfa.Closed) :
    ∃ d, r.determinize? = some d ∧ ∀ w : List UInt8,
      ((∃ id, d.walk? d.start w = some id) ↔
        (∀ b ∈ w, 32 ≤ b.toNat ∧ b.toNat ≤ 126) ∧
          ∃ q, r.nfa.accepts? ⟨r.root, q⟩ w = some true) ∧
      ∀ id, d.walk? d.start w = some id → ∃ s, d.state? id = some s ∧
        s.origin.Pairwise (· < ·) ∧
        (∀ q, q ∈ s.origin ↔ r.nfa.accepts? ⟨r.root, q⟩ w = some true) ∧
        (∀ tag, s.accept = some tag ↔ ∃ q, r.nfa.Prevails s.origin q tag) ∧
        (s.accept = none ↔ ∀ q ∈ s.origin, r.nfa.stampOf q = none) := by
  have htable := r.determinize_tableOf
  have hmem : ∀ q w, q ∈ r.nfa.run r.root w ↔ r.nfa.accepts? ⟨r.root, q⟩ w = some true := by
    intro q w
    rw [hn.accepts?_eq_accepts hroot, Option.some.injEq, accepts_iff, mem_run]
  refine ⟨r.determinize, determinize?_eq_determinize hroot hn, fun w => ⟨⟨?_, ?_⟩, ?_⟩⟩
  · rintro ⟨id, hid⟩
    obtain ⟨_, hb, horigin, _⟩ := htable.walk?_start hid
    -- the root is in the start set, and from there no walk reaches the empty set
    have hstart : r.determinize.originOf r.determinize.start ≠ [] := by
      rw [htable.start_origin]
      exact List.ne_nil_of_mem (mem_closure.mpr ⟨hroot, r.root, List.mem_singleton_self _, .refl⟩)
    have hne := htable.walk?_origin_ne_nil hn hstart hid
    rw [horigin] at hne
    obtain ⟨q, hq⟩ := List.exists_mem_of_ne_nil _ hne
    exact ⟨fun b hmem => Alphabet.mem_symbols.mp (hb b hmem), q, (hmem q w).mp hq⟩
  · rintro ⟨hb, q, hq⟩
    exact htable.exists_walk?_start (fun b hmem => Alphabet.mem_symbols.mpr (hb b hmem))
      (List.ne_nil_of_mem ((hmem q w).mpr hq))
  · intro id hid
    obtain ⟨hlt, _, horigin, haccept⟩ := htable.walk?_start hid
    obtain ⟨s, hs⟩ := Dfa.exists_state? hlt
    have hsorigin : s.origin = r.nfa.run r.root w := by
      rw [← horigin, Dfa.originOf, hs]
      rfl
    have hsaccept : s.accept = r.nfa.bestStamp s.origin := by
      rw [hsorigin, ← haccept, Dfa.acceptOf, hs]
      rfl
    have hasc : s.origin.Pairwise (· < ·) := by
      rw [hsorigin]
      exact pairwise_run r.root w
    refine ⟨s, hs, hasc, ?_, ?_, ?_⟩
    · intro q
      rw [hsorigin]
      exact hmem q w
    · intro tag
      rw [hsaccept]
      exact bestStamp_eq_some_iff hasc
    · rw [hsaccept]
      exact bestStamp_eq_none_iff

/-- Two tokens for the letter `a`: the longer class has a cycle of ε-edges and the
weaker stamp. -/
def rivals : RootedNfa where
  nfa := ⟨#[{ epsilon := [1], edges := [(97, 1)] }, { epsilon := [0], stamp := some ⟨"word", 2⟩ },
    { stamp := some ⟨"letter", 1⟩ }, { epsilon := [0], edges := [(97, 2)] }]⟩
  root := 3
  definitions := []

/-- The stronger of two stamps is the tag of the state that both share. -/
theorem determinize_simulates_rivals : rivals.root < rivals.nfa.size ∧ rivals.nfa.Closed ∧
    ∃ d id s, rivals.determinize? = some d ∧ d.walk? d.start [97] = some id ∧
      d.state? id = some s ∧ s.accept = some ⟨"letter", 1⟩ := by
  have hroot : rivals.root < rivals.nfa.size := by decide
  have hn : rivals.nfa.Closed := by decide
  have haccepts : rivals.nfa.accepts? ⟨rivals.root, 2⟩ [97] = some true := by
    rw [hn.accepts?_eq_accepts hroot, Option.some.injEq, accepts_iff]
    exact ⟨by decide, .edge (List.mem_singleton_self _) (.nil 2)⟩
  obtain ⟨d, hd, h⟩ := determinize_simulates rivals hroot hn
  obtain ⟨id, hid⟩ := (h [97]).1.mpr ⟨List.forall_mem_singleton.mpr (by decide), 2, haccepts⟩
  obtain ⟨s, hs, _, hmem, htag, _⟩ := (h [97]).2 id hid
  refine ⟨hroot, hn, d, id, s, hd, hid, hs, (htag _).mpr ⟨2, (hmem 2).mpr haccepts, rfl, ?_⟩⟩
  intro other _ rival hrival
  -- the states 1 and 2 are stamped
  rcases other with _ | _ | _ | k
  · cases hrival
  · cases hrival
    decide
  · cases hrival
    decide
  · cases k <;> cases hrival

end Munch.RootedNfa
