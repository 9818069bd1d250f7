import Mathlib.Computability.Language
import Mathlib.Logic.Relation
import Munch.Checked
import Munch.Nfa.Simulation

/-!
# Paths through an automaton

The simulation of an automaton keeps sets of states; this module says what the
sets hold. `Nfa.EpsilonReach` is reachability over ε-edges and `Nfa.Path` the
relation "this word leads from this state to that one".

* `mem_closure` — the closure of some seeds holds exactly the existing states
  that ε-edges reach from a seed;
* `mem_run` — the run over a word holds exactly the existing states at the end
  of a path that spells the word;
* `accepts?_eq_accepts` — in a closed arena the simulation visits no missing
  state.

The first two hold of any arena: a missing state has no edges, so a path can
only end there, and the sets hold existing states only.
-/

namespace Munch.Nfa

variable {n : Nfa}

/-- Reachability over ε-edges, no edge included. -/
def EpsilonReach (n : Nfa) : Nat → Nat → Prop :=
  Relation.ReflTransGen fun p q => q ∈ n.epsilonOf p

/-- The word leads from the first state to the last. -/
inductive Path (n : Nfa) : Nat → List UInt8 → Nat → Prop
  | nil (q : Nat) : Path n q [] q
  | epsilon {p q r : Nat} {w : List UInt8} :
      q ∈ n.epsilonOf p → Path n q w r → Path n p w r
  | edge {p q r : Nat} {b : UInt8} {w : List UInt8} :
      (b, q) ∈ n.edgesOf p → Path n q w r → Path n p (b :: w) r

/-! ## Missing states -/

theorem state?_eq_none_iff {id : Nat} : n.state? id = none ↔ n.size ≤ id := by
  unfold state? size
  exact Array.getElem?_eq_none_iff

/-- Only an existing state has ε-edges. -/
theorem lt_size_of_mem_epsilonOf {p q : Nat} (h : q ∈ n.epsilonOf p) : p < n.size := by
  by_contra hp
  rw [epsilonOf, state?_eq_none_iff.mpr (Nat.le_of_not_lt hp)] at h
  exact absurd h (List.not_mem_nil)

/-- Only an existing state has edges. -/
theorem lt_size_of_mem_edgesOf {p : Nat} {e : UInt8 × Nat} (h : e ∈ n.edgesOf p) :
    p < n.size := by
  by_contra hp
  rw [edgesOf, state?_eq_none_iff.mpr (Nat.le_of_not_lt hp)] at h
  exact absurd h (List.not_mem_nil)

/-! ## Paths -/

theorem Path.append {p q r : Nat} {u v : List UInt8} (hu : n.Path p u q) (hv : n.Path q v r) :
    n.Path p (u ++ v) r := by
  induction hu with
  | nil _ => exact hv
  | epsilon hstep _ ih => exact .epsilon hstep (ih hv)
  | edge hstep _ ih => exact .edge hstep (ih hv)

/-- ε-edges in front of a path do not change its word. -/
theorem EpsilonReach.path {p q r : Nat} {w : List UInt8} (h : n.EpsilonReach p q)
    (hw : n.Path q w r) : n.Path p w r := by
  induction h using Relation.ReflTransGen.head_induction_on with
  | refl => exact hw
  | head hstep _ ih => exact .epsilon hstep ih

/-- A path over the empty word has ε-edges only. -/
theorem Path.epsilonReach {p q : Nat} {w : List UInt8} (h : n.Path p w q) (hw : w = []) :
    n.EpsilonReach p q := by
  induction h with
  | nil _ => exact .refl
  | epsilon hstep _ ih => exact .head hstep (ih hw)
  | edge _ _ _ => exact absurd hw (List.cons_ne_nil _ _)

/-- A path over a longer word takes ε-edges up to the edge of its first byte. -/
theorem Path.uncons {p q : Nat} {b : UInt8} {v w : List UInt8} (h : n.Path p v q)
    (hv : v = b :: w) :
    ∃ s t, n.EpsilonReach p s ∧ (b, t) ∈ n.edgesOf s ∧ n.Path t w q := by
  induction h with
  | nil _ => exact absurd hv.symm (List.cons_ne_nil _ _)
  | epsilon hstep _ ih =>
    obtain ⟨s, t, hs, ht, hw⟩ := ih hv
    exact ⟨s, t, .head hstep hs, ht, hw⟩
  | edge hstep hrest _ =>
    obtain ⟨rfl, rfl⟩ := List.cons.inj hv
    exact ⟨_, _, .refl, hstep, hrest⟩

/-- A path that starts at a missing state ends there. -/
theorem Path.lt_size_start {p q : Nat} {w : List UInt8} (h : n.Path p w q) (hq : q < n.size) :
    p < n.size := by
  cases h with
  | nil _ => exact hq
  | epsilon hstep _ => exact lt_size_of_mem_epsilonOf hstep
  | edge hstep _ => exact lt_size_of_mem_edgesOf hstep

/-! ## What the search for the closure visits -/

theorem contains_expand_of_seen {seen : IdSet n.size} {pending : List Nat} {q : Nat}
    (h : seen.contains q) : (n.expand seen pending).contains q := by
  fun_induction n.expand seen pending with
  | case1 seen => exact h
  | case2 seen id rest hlacks ih => exact ih ((IdSet.contains_insert _ _ _).mpr (.inl h))
  | case3 seen id rest hlacks ih => exact ih h

theorem contains_expand_of_pending {seen : IdSet n.size} {pending : List Nat} {q : Nat}
    (h : q ∈ pending) (hq : q < n.size) : (n.expand seen pending).contains q := by
  fun_induction n.expand seen pending with
  | case1 seen => exact absurd h (List.not_mem_nil)
  | case2 seen id rest hlacks ih =>
    rcases List.mem_cons.mp h with rfl | hrest
    · exact contains_expand_of_seen ((IdSet.contains_insert _ _ _).mpr (.inr ⟨rfl, hq⟩))
    · exact ih (List.mem_append_right _ hrest)
  | case3 seen id rest hlacks ih =>
    rcases List.mem_cons.mp h with rfl | hrest
    · -- the head is in range and not absent, so it was seen before
      have hseen : seen.contains q := by
        by_contra hno
        exact hlacks ((IdSet.lacks_iff seen q).mpr ⟨hq, hno⟩)
      exact contains_expand_of_seen hseen
    · exact ih hrest

/-- The search visits nothing but what the pending states reach. -/
theorem reach_of_contains_expand {seen : IdSet n.size} {pending : List Nat} {q : Nat}
    (h : (n.expand seen pending).contains q) :
    seen.contains q ∨ ∃ p ∈ pending, n.EpsilonReach p q := by
  fun_induction n.expand seen pending with
  | case1 seen => exact .inl h
  | case2 seen id rest hlacks ih =>
    rcases ih h with hins | ⟨p, hp, hreach⟩
    · rcases (IdSet.contains_insert _ _ _).mp hins with hseen | ⟨rfl, _⟩
      · exact .inl hseen
      · exact .inr ⟨q, List.mem_cons_self, .refl⟩
    · rcases List.mem_append.mp hp with hedge | hrest
      · exact .inr ⟨id, List.mem_cons_self, .head hedge hreach⟩
      · exact .inr ⟨p, List.mem_cons_of_mem _ hrest, hreach⟩
  | case3 seen id rest hlacks ih =>
    rcases ih h with hseen | ⟨p, hp, hreach⟩
    · exact .inl hseen
    · exact .inr ⟨p, List.mem_cons_of_mem _ hp, hreach⟩

/-- Every ε-edge out of the set leads into it or to a pending state. -/
def Covers (n : Nfa) (seen : IdSet n.size) (pending : List Nat) : Prop :=
  ∀ p, seen.contains p → ∀ q ∈ n.epsilonOf p, q < n.size → seen.contains q ∨ q ∈ pending

/-- What the search has visited at its end is closed under ε-edges. -/
theorem Covers.expand {seen : IdSet n.size} {pending : List Nat} (h : n.Covers seen pending) :
    n.Covers (n.expand seen pending) [] := by
  fun_induction n.expand seen pending with
  | case1 seen => exact h
  | case2 seen id rest hlacks ih =>
    apply ih
    intro p hp q hq hlt
    rw [IdSet.contains_insert]
    rcases (IdSet.contains_insert _ _ _).mp hp with hp | ⟨rfl, _⟩
    · rcases h p hp q hq hlt with hseen | hpend
      · exact .inl (.inl hseen)
      · rcases List.mem_cons.mp hpend with rfl | hrest
        · exact .inl (.inr ⟨rfl, hlt⟩)
        · exact .inr (List.mem_append_right _ hrest)
    · exact .inr (List.mem_append_left _ hq)
  | case3 seen id rest hlacks ih =>
    apply ih
    intro p hp q hq hlt
    rcases h p hp q hq hlt with hseen | hpend
    · exact .inl hseen
    · rcases List.mem_cons.mp hpend with rfl | hrest
      -- the dropped head was seen before
      · refine .inl ?_
        by_contra hno
        exact hlacks ((IdSet.lacks_iff seen q).mpr ⟨hlt, hno⟩)
      · exact .inr hrest

/-! ## Closure and move -/

/-- The closure holds the existing states that ε-edges reach from a seed. -/
theorem mem_closure {seeds : List Nat} {q : Nat} :
    q ∈ n.closure seeds ↔ q < n.size ∧ ∃ s ∈ seeds, n.EpsilonReach s q := by
  rw [closure, IdSet.mem_toList]
  constructor
  · intro h
    refine ⟨IdSet.lt_of_contains h, ?_⟩
    rcases reach_of_contains_expand h with hseen | hreach
    · rw [IdSet.contains_empty] at hseen
      exact absurd hseen Bool.false_ne_true
    · exact hreach
  · rintro ⟨hlt, s, hs, hreach⟩
    have hcov : n.Covers (n.expand (IdSet.empty n.size) seeds) [] := by
      apply Covers.expand
      intro p hp
      rw [IdSet.contains_empty] at hp
      exact absurd hp Bool.false_ne_true
    induction hreach with
    | refl => exact contains_expand_of_pending hs hlt
    | tail _ hstep ih =>
      have hmid := ih (lt_size_of_mem_epsilonOf hstep)
      rcases hcov _ hmid _ hstep hlt with hin | hin
      · exact hin
      · exact absurd hin (List.not_mem_nil)

theorem pairwise_closure (seeds : List Nat) : (n.closure seeds).Pairwise (· < ·) :=
  List.pairwise_lt_range.filter _

theorem mem_move {ids : List Nat} {b : UInt8} {q : Nat} :
    q ∈ n.move ids b ↔ ∃ p ∈ ids, (b, q) ∈ n.edgesOf p := by
  rw [move, List.mem_eraseDups, List.mem_flatMap]
  simp only [mem_targets]

theorem mem_advance {ids : List Nat} {b : UInt8} {q : Nat} :
    q ∈ n.advance ids b ↔
      q < n.size ∧ ∃ p ∈ ids, ∃ t, (b, t) ∈ n.edgesOf p ∧ n.EpsilonReach t q := by
  rw [advance, mem_closure]
  constructor
  · rintro ⟨hlt, t, ht, hreach⟩
    obtain ⟨p, hp, hedge⟩ := mem_move.mp ht
    exact ⟨hlt, p, hp, t, hedge, hreach⟩
  · rintro ⟨hlt, p, hp, t, hedge, hreach⟩
    exact ⟨hlt, t, mem_move.mpr ⟨p, hp, hedge⟩, hreach⟩

theorem lt_size_of_mem_closure {seeds : List Nat} {q : Nat} (h : q ∈ n.closure seeds) :
    q < n.size :=
  (mem_closure.mp h).1

/-- What ε-edges reach from a closure is in the closure. -/
theorem closure_of_reach {seeds : List Nat} {p q : Nat} (hp : p ∈ n.closure seeds)
    (h : n.EpsilonReach p q) (hq : q < n.size) : q ∈ n.closure seeds := by
  obtain ⟨_, s, hs, hsp⟩ := mem_closure.mp hp
  exact mem_closure.mpr ⟨hq, s, hs, hsp.trans h⟩

/-! ## Runs -/

/-- Reading on from a closure: the states at the end of a path from a member. -/
theorem mem_foldl_advance {seeds : List Nat} {w : List UInt8} {q : Nat} :
    q ∈ w.foldl n.advance (n.closure seeds) ↔
      q < n.size ∧ ∃ p ∈ n.closure seeds, n.Path p w q := by
  induction w generalizing seeds with
  | nil =>
    rw [List.foldl_nil]
    constructor
    · exact fun h => ⟨lt_size_of_mem_closure h, q, h, .nil q⟩
    · rintro ⟨hlt, p, hp, hpath⟩
      exact closure_of_reach hp (hpath.epsilonReach rfl) hlt
  | cons b w ih =>
    rw [List.foldl_cons, advance, ih]
    constructor
    · rintro ⟨hlt, p, hp, hpath⟩
      obtain ⟨_, s, hs, t, hedge, hreach⟩ := mem_advance.mp hp
      exact ⟨hlt, s, hs, .edge hedge (hreach.path hpath)⟩
    · rintro ⟨hlt, p, hp, hpath⟩
      obtain ⟨s, t, hps, hedge, hrest⟩ := hpath.uncons rfl
      have hs : s ∈ n.closure seeds := closure_of_reach hp hps (lt_size_of_mem_edgesOf hedge)
      exact ⟨hlt, t, mem_advance.mpr ⟨hrest.lt_size_start hlt, s, hs, t, hedge, .refl⟩, hrest⟩

/-- The run over a word holds the existing states that the word leads to. -/
theorem mem_run {start q : Nat} {w : List UInt8} :
    q ∈ n.run start w ↔ q < n.size ∧ n.Path start w q := by
  rw [run, mem_foldl_advance]
  constructor
  · rintro ⟨hlt, p, hp, hpath⟩
    obtain ⟨_, s, hs, hreach⟩ := mem_closure.mp hp
    rw [List.mem_singleton.mp hs] at hreach
    exact ⟨hlt, hreach.path hpath⟩
  · rintro ⟨hlt, hpath⟩
    have hstart : start < n.size := hpath.lt_size_start hlt
    exact ⟨hlt, start, mem_closure.mpr ⟨hstart, start, List.mem_singleton_self _, .refl⟩, hpath⟩

/-- A run is ascending. -/
theorem pairwise_run (start : Nat) (w : List UInt8) : (n.run start w).Pairwise (· < ·) := by
  rw [run]
  cases w using List.reverseRecOn with
  | nil => exact pairwise_closure _
  | append_singleton w b =>
    rw [List.foldl_append]
    exact pairwise_closure _

theorem accepts_iff {f : Fragment} {w : List UInt8} :
    n.accepts f w = true ↔ f.accept < n.size ∧ n.Path f.start w f.accept := by
  rw [accepts, List.contains_iff_mem, mem_run]

/-! ## Closed arenas -/

theorem has_iff {id : Nat} : n.has id = true ↔ id < n.size := by
  rw [has, decide_eq_true_iff]

/-- It is enough to look at the edges of the states that exist. -/
theorem closed_iff_forall_states : n.Closed ↔ ∀ s ∈ n.states.toList,
    (∀ e ∈ s.edges, e.2 < n.size) ∧ ∀ target ∈ s.epsilon, target < n.size := by
  constructor
  · intro hn s hs
    obtain ⟨id, hid, rfl⟩ := List.getElem_of_mem hs
    have hstate : n.state? id = some n.states.toList[id] := by
      rw [state?, ← Array.getElem?_toList, List.getElem?_eq_getElem hid]
    constructor
    · intro e he
      apply hn.edges id e
      rw [edgesOf, hstate]
      exact he
    · intro target ht
      apply hn.epsilon id target
      rw [epsilonOf, hstate]
      exact ht
  · intro h
    have hall : ∀ id s, n.state? id = some s → s ∈ n.states.toList := fun id s hs =>
      Array.mem_toList_iff.mpr (Array.mem_of_getElem? hs)
    constructor
    · intro id e he
      unfold edgesOf at he
      cases hs : n.state? id with
      | none => rw [hs] at he; exact absurd he (List.not_mem_nil)
      | some s => rw [hs] at he; exact (h s (hall id s hs)).1 e he
    · intro id target ht
      unfold epsilonOf at ht
      cases hs : n.state? id with
      | none => rw [hs] at ht; exact absurd ht (List.not_mem_nil)
      | some s => rw [hs] at ht; exact (h s (hall id s hs)).2 target ht

instance (n : Nfa) : Decidable n.Closed :=
  decidable_of_iff' _ closed_iff_forall_states

theorem Closed.closure?_eq (hn : n.Closed) {seeds : List Nat} (hs : ∀ s ∈ seeds, s < n.size) :
    n.closure? seeds = some (n.closure seeds) := by
  unfold closure?
  rw [if_pos]
  rw [Bool.and_eq_true, List.all_eq_true, List.all_eq_true]
  refine ⟨fun s hmem => has_iff.mpr (hs s hmem), fun q _ => ?_⟩
  rw [List.all_eq_true]
  exact fun t ht => has_iff.mpr (hn.epsilon q t ht)

theorem Closed.move?_eq {ids : List Nat} (hids : ∀ q ∈ ids, q < n.size) (b : UInt8) :
    n.move? ids b = some (n.move ids b) := by
  unfold move?
  rw [if_pos]
  rw [List.all_eq_true]
  exact fun q hq => has_iff.mpr (hids q hq)

theorem Closed.lt_size_of_mem_move (hn : n.Closed) {ids : List Nat} {b : UInt8} {q : Nat}
    (h : q ∈ n.move ids b) : q < n.size := by
  obtain ⟨p, _, hedge⟩ := mem_move.mp h
  exact hn.edges p (b, q) hedge

/-- In a closed arena reading on from a closure visits no missing state. -/
theorem Closed.foldlM_closure? (hn : n.Closed) (w : List UInt8) (seeds : List Nat) :
    w.foldlM (fun ids b => (n.move? ids b).bind n.closure?) (n.closure seeds) =
      some (w.foldl n.advance (n.closure seeds)) := by
  induction w generalizing seeds with
  | nil => rfl
  | cons b w ih =>
    have hstep : (n.move? (n.closure seeds) b).bind n.closure? =
        some (n.advance (n.closure seeds) b) := by
      rw [Closed.move?_eq (fun q hq => lt_size_of_mem_closure hq), Option.bind_some]
      exact hn.closure?_eq (fun q hq => hn.lt_size_of_mem_move hq)
    rw [List.foldlM_cons, hstep]
    exact ih _

/-- In a closed arena a simulation from an existing state visits no missing one. -/
theorem Closed.accepts?_eq_accepts (hn : n.Closed) {f : Fragment} (hf : f.start < n.size)
    (w : List UInt8) : n.accepts? f w = some (n.accepts f w) := by
  have hfirst : n.closure? [f.start] = some (n.closure [f.start]) :=
    hn.closure?_eq (fun s hs => by rw [List.mem_singleton.mp hs]; exact hf)
  unfold accepts?
  rw [hfirst]
  show (w.foldlM (fun ids b => (n.move? ids b).bind n.closure?) (n.closure [f.start])).bind _ = _
  rw [hn.foldlM_closure?]
  rfl

end Munch.Nfa
