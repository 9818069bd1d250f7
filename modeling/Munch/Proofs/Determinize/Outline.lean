import Munch.Proofs.Determinize

/-!
# What the numbering of a table depends on

The outline of an automaton is its edges, where its ε-edges lead, and which of its
states are stamped; the order of ε-edges and what the stamps say are left out. In
automata of one outline the same sets are closed, the same symbols lead to the same
sets, and the same sets have a stamp that counts. So the subset construction takes
the same turns (`Nfa.SameOutline.saturate`), and the tables have one outline, too:
all but the tags of their accepting states is the same.
-/

namespace Munch

/-- The automata differ at most in the order of their ε-edges and in what their stamps
say. -/
structure Nfa.SameOutline (n m : Nfa) : Prop where
  size : n.size = m.size
  edges : ∀ id, n.edgesOf id = m.edgesOf id
  epsilon : ∀ id target, target ∈ n.epsilonOf id ↔ target ∈ m.epsilonOf id
  stamped : ∀ id, (n.stampOf id).isSome = (m.stampOf id).isSome

/-- The tables differ at most in the tags of their accepting states. -/
structure Dfa.SameOutline (d e : Dfa) : Prop where
  start : d.start = e.start
  size : d.size = e.size
  origin : ∀ id, d.originOf id = e.originOf id
  step : ∀ id b, d.step id b = e.step id b
  final : ∀ id, (d.acceptOf id).isSome = (e.acceptOf id).isSome

/-! ## Sets of states -/

namespace Nfa

variable {n m : Nfa}

theorem SameOutline.closure (h : n.SameOutline m) (seeds : List Nat) :
    n.closure seeds = m.closure seeds := by
  have hreach : n.EpsilonReach = m.EpsilonReach := by
    unfold EpsilonReach
    congr 1
    funext p q
    exact propext (h.epsilon p q)
  apply closure_eq_of_mem_iff h.size
  intro q
  rw [mem_closure, mem_closure, h.size, hreach]

theorem SameOutline.move (h : n.SameOutline m) (ids : List Nat) (b : UInt8) :
    n.move ids b = m.move ids b := by
  simp only [Nfa.move, targets, h.edges]

theorem SameOutline.advance (h : n.SameOutline m) (ids : List Nat) (b : UInt8) :
    n.advance ids b = m.advance ids b := by
  rw [Nfa.advance, Nfa.advance, h.move, h.closure]

/-- A set has a stamp that counts in both or in neither. -/
theorem SameOutline.isSome_bestStamp (h : n.SameOutline m) (ids : List Nat) :
    (n.bestStamp ids).isSome = (m.bestStamp ids).isSome := by
  have hnone : ∀ id, n.stampOf id = none ↔ m.stampOf id = none :=
    fun id => Option.isSome_eq_isSome.mp (h.stamped id)
  rw [Option.isSome_eq_isSome, bestStamp_eq_none_iff, bestStamp_eq_none_iff]
  simp only [hnone]

end Nfa

/-! ## Writing to a table -/

namespace Dfa

variable {d e : Dfa}

theorem SameOutline.map_origin (h : d.SameOutline e) :
    d.states.map State.origin = e.states.map State.origin := by
  apply Array.ext
  · rw [Array.size_map, Array.size_map]
    exact h.size
  · intro i hi hi'
    rw [Array.size_map] at hi hi'
    have horigin := h.origin i
    unfold originOf state? at horigin
    rw [Array.getElem?_eq_getElem hi, Array.getElem?_eq_getElem hi'] at horigin
    rw [Array.getElem_map, Array.getElem_map]
    exact horigin

theorem SameOutline.idOf? (h : d.SameOutline e) (origin : List Nat) :
    d.idOf? origin = e.idOf? origin := by
  have hfind : ∀ c : Dfa,
      c.idOf? origin = (c.states.map State.origin).findIdx? (· == origin) := by
    intro c
    rw [Array.findIdx?_map]
    rfl
  rw [hfind, hfind, h.map_origin]

theorem SameOutline.append (h : d.SameOutline e) (origin : List Nat) {tag tag' : Option Tag}
    (htag : tag.isSome = tag'.isSome) :
    (d.append ⟨origin, emptyRow, tag⟩).SameOutline (e.append ⟨origin, emptyRow, tag'⟩) := by
  constructor
  · exact h.start
  · rw [size_append, size_append, h.size]
  · intro id
    have hold := h.origin id
    unfold originOf at hold ⊢
    rw [state?_append, state?_append, h.size]
    split
    · rfl
    · exact hold
  · intro id b
    rw [step_append_emptyRow, step_append_emptyRow, h.step]
  · intro id
    have hold := h.final id
    unfold acceptOf at hold ⊢
    rw [state?_append, state?_append, h.size]
    split
    · exact htag
    · exact hold

theorem SameOutline.insert (h : d.SameOutline e) (origin : List Nat) {tag tag' : Option Tag}
    (htag : tag.isSome = tag'.isSome) :
    (d.insert origin tag).id = (e.insert origin tag').id ∧
      (d.insert origin tag).dfa.SameOutline (e.insert origin tag').dfa := by
  unfold Dfa.insert
  rw [h.idOf?]
  cases e.idOf? origin with
  | some id => exact ⟨rfl, h⟩
  | none => exact ⟨h.size, h.append origin htag⟩

theorem SameOutline.link (h : d.SameOutline e) {current : Nat} {b : UInt8}
    (hcur : current < d.size) (hb : b ∈ Alphabet.symbols) (target : Option Nat) :
    (d.link current b target).SameOutline (e.link current b target) := by
  constructor
  · rw [start_link, start_link, h.start]
  · rw [size_link, size_link, h.size]
  · intro id
    rw [originOf_link, originOf_link, h.origin]
  · intro id c
    rw [step_link hcur hb, step_link (h.size ▸ hcur) hb, h.step]
  · intro id
    rw [acceptOf_link, acceptOf_link, h.final]

theorem size_le_insert (d : Dfa) (origin : List Nat) (tag : Option Tag) :
    d.size ≤ (d.insert origin tag).dfa.size := by
  rcases d.insert_cases origin tag with ⟨id, _, _, heq⟩ | ⟨_, heq⟩
  · rw [heq]
  · rw [heq, size_append]
    exact Nat.le_succ _

end Dfa

/-! ## The search -/

namespace Nfa

variable {n m : Nfa} {d e : Dfa} {current : Nat}

theorem size_le_exploreSymbol (n : Nfa) (current : Nat) (d : Dfa) (b : UInt8) :
    d.size ≤ (n.exploreSymbol current d b).size := by
  by_cases hmove : n.move (d.originOf current) b = []
  · rw [exploreSymbol_of_move_eq_nil hmove]
  · rw [exploreSymbol_of_move_ne_nil hmove, Dfa.size_link]
    exact d.size_le_insert _ _

theorem SameOutline.exploreSymbol (h : n.SameOutline m) (hd : d.SameOutline e) {b : UInt8}
    (hcur : current < d.size) (hb : b ∈ Alphabet.symbols) :
    (n.exploreSymbol current d b).SameOutline (m.exploreSymbol current e b) := by
  have hmove : n.move (d.originOf current) b = m.move (e.originOf current) b := by
    rw [hd.origin, h.move]
  have hset : n.advance (d.originOf current) b = m.advance (e.originOf current) b := by
    rw [hd.origin, h.advance]
  by_cases hnil : n.move (d.originOf current) b = []
  · rw [exploreSymbol_of_move_eq_nil hnil, exploreSymbol_of_move_eq_nil (hmove ▸ hnil)]
    exact hd
  · rw [exploreSymbol_of_move_ne_nil hnil, exploreSymbol_of_move_ne_nil (hmove ▸ hnil), hset]
    obtain ⟨hid, hinsert⟩ := hd.insert (m.advance (e.originOf current) b)
      (h.isSome_bestStamp (m.advance (e.originOf current) b))
    simp only [hid]
    exact hinsert.link (Nat.lt_of_lt_of_le hcur (d.size_le_insert _ _)) hb _

theorem SameOutline.foldl_exploreSymbol (h : n.SameOutline m) (hd : d.SameOutline e)
    (hcur : current < d.size) {bs : List UInt8} (hbs : ∀ b ∈ bs, b ∈ Alphabet.symbols) :
    (bs.foldl (n.exploreSymbol current) d).SameOutline
      (bs.foldl (m.exploreSymbol current) e) := by
  induction bs generalizing d e with
  | nil => exact hd
  | cons b bs ih =>
    obtain ⟨hb, hrest⟩ := List.forall_mem_cons.mp hbs
    rw [List.foldl_cons, List.foldl_cons]
    exact ih (h.exploreSymbol hd hcur hb)
      (Nat.lt_of_lt_of_le hcur (n.size_le_exploreSymbol current d b)) hrest

theorem SameOutline.saturate (h : n.SameOutline m) (hd : d.SameOutline e) (rounds current : Nat) :
    (n.saturate rounds current d).SameOutline (m.saturate rounds current e) := by
  induction rounds generalizing current d e with
  | zero => exact hd
  | succ rounds ih =>
    rw [Nfa.saturate, Nfa.saturate, ← hd.size]
    split
    · rename_i hcur
      exact ih (h.foldl_exploreSymbol hd hcur fun b hb => hb) _
    · exact hd

end Nfa

theorem RootedNfa.sameOutline_determinize {r s : RootedNfa} (hroot : r.root = s.root)
    (h : r.nfa.SameOutline s.nfa) : r.determinize.SameOutline s.determinize := by
  have hempty : Dfa.empty.SameOutline Dfa.empty :=
    ⟨rfl, rfl, fun _ => rfl, fun _ _ => rfl, fun _ => rfl⟩
  have hseed : r.seed.SameOutline s.seed := by
    unfold seed
    rw [hroot, h.closure]
    exact (hempty.insert _ (h.isSome_bestStamp _)).2
  unfold determinize
  rw [h.size]
  exact h.saturate hseed _ 0

end Munch
