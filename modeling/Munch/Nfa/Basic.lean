import Munch.Tag

/-!
# Nondeterministic automata

An `Nfa` is an arena of states. A state is named by its position, positions are
handed out in order of creation, and states are never removed, so a name stays
good while the arena grows. Edges carry a byte, ε-edges carry nothing, and a
state may be stamped with a tag.

Reading a state that does not exist finds no edges and no stamp; writing to one
changes nothing. `Nfa.Closed` says that this never matters: every edge leads to
an existing state.
-/

namespace Munch

/-- One state of an arena. -/
structure Nfa.State where
  /-- Labelled edges in order of creation; a label may occur more than once. -/
  edges : List (UInt8 × Nat) := []
  /-- ε-edges in order of creation. -/
  epsilon : List Nat := []
  /-- The tag of an accepting state. -/
  stamp : Option Tag := none
deriving DecidableEq, Repr

/-- An arena of states. -/
structure Nfa where
  /-- The states by name. -/
  states : Array Nfa.State := #[]
deriving DecidableEq, Repr

namespace Nfa

/-- The arena without states. -/
def empty : Nfa := {}

/-- Number of states, which is also the name of the next one. -/
def size (n : Nfa) : Nat :=
  n.states.size

/-- Whether a state of this name exists. -/
def has (n : Nfa) (id : Nat) : Bool :=
  id < n.size

/-- The state of this name. -/
def state? (n : Nfa) (id : Nat) : Option State :=
  n.states[id]?

/-- Labelled edges out of a state. -/
def edgesOf (n : Nfa) (id : Nat) : List (UInt8 × Nat) :=
  (n.state? id).elim [] State.edges

/-- ε-edges out of a state. -/
def epsilonOf (n : Nfa) (id : Nat) : List Nat :=
  (n.state? id).elim [] State.epsilon

/-- The stamp of a state. -/
def stampOf (n : Nfa) (id : Nat) : Option Tag :=
  (n.state? id).bind State.stamp

/-- Where the edges labelled `b` lead, in order of creation. -/
def targets (n : Nfa) (id : Nat) (b : UInt8) : List Nat :=
  (n.edgesOf id).filterMap fun e => if e.1 = b then some e.2 else none

/-! ## Growing an arena -/

/-- Adds a state without edges; its name is the old size. -/
def addState (n : Nfa) : Nfa :=
  { n with states := n.states.push {} }

/-- Adds an edge labelled `b`. -/
def addEdge (n : Nfa) (source : Nat) (b : UInt8) (target : Nat) : Nfa :=
  { n with states := n.states.modify source fun s => { s with edges := s.edges ++ [(b, target)] } }

/-- Adds an ε-edge. -/
def addEpsilon (n : Nfa) (source target : Nat) : Nfa :=
  { n with states := n.states.modify source fun s => { s with epsilon := s.epsilon ++ [target] } }

/-- Stamps a state; a state that has a stamp keeps it. -/
def stamp (n : Nfa) (id : Nat) (tag : Tag) : Nfa :=
  { n with states := n.states.modify id fun s => { s with stamp := s.stamp.or (some tag) } }

/-! ## Closed arenas -/

/-- Every edge leads to an existing state. -/
structure Closed (n : Nfa) : Prop where
  edges : ∀ id, ∀ e ∈ n.edgesOf id, e.2 < n.size
  epsilon : ∀ id, ∀ target ∈ n.epsilonOf id, target < n.size

/-! ## What growth does to the view of a state -/

@[simp] theorem size_empty : empty.size = 0 := rfl

@[simp] theorem size_addState (n : Nfa) : n.addState.size = n.size + 1 := by
  simp [size, addState]

@[simp] theorem size_addEdge (n : Nfa) (source : Nat) (b : UInt8) (target : Nat) :
    (n.addEdge source b target).size = n.size := by
  simp [size, addEdge]

@[simp] theorem size_addEpsilon (n : Nfa) (source target : Nat) :
    (n.addEpsilon source target).size = n.size := by
  simp [size, addEpsilon]

@[simp] theorem size_stamp (n : Nfa) (id : Nat) (tag : Tag) : (n.stamp id tag).size = n.size := by
  simp [size, stamp]

theorem state?_addState (n : Nfa) (id : Nat) :
    n.addState.state? id = if id = n.size then some {} else n.state? id :=
  Array.getElem?_push

theorem state?_addEdge (n : Nfa) (source : Nat) (b : UInt8) (target id : Nat) :
    (n.addEdge source b target).state? id =
      if source = id then (n.state? id).map fun s => { s with edges := s.edges ++ [(b, target)] }
      else n.state? id := by
  simp [state?, addEdge, Array.getElem?_modify]

theorem state?_addEpsilon (n : Nfa) (source target id : Nat) :
    (n.addEpsilon source target).state? id =
      if source = id then (n.state? id).map fun s => { s with epsilon := s.epsilon ++ [target] }
      else n.state? id := by
  simp [state?, addEpsilon, Array.getElem?_modify]

theorem state?_stamp (n : Nfa) (site : Nat) (tag : Tag) (id : Nat) :
    (n.stamp site tag).state? id =
      if site = id then (n.state? id).map fun s => { s with stamp := s.stamp.or (some tag) }
      else n.state? id := by
  simp [state?, stamp, Array.getElem?_modify]

theorem mem_targets {n : Nfa} {id target : Nat} {b : UInt8} :
    target ∈ n.targets id b ↔ (b, target) ∈ n.edgesOf id := by
  simp only [targets, List.mem_filterMap, Option.ite_none_right_eq_some, Option.some.injEq]
  constructor
  · rintro ⟨e, he, rfl, rfl⟩
    exact he
  · exact fun h => ⟨_, h, rfl, rfl⟩

end Nfa

end Munch
