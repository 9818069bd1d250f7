import Munch.Alphabet
import Munch.Tag

/-!
# Deterministic tables

A `Dfa` is a list of states with a start. A state stands for a list of names of
a nondeterministic automaton, its origin; the origin is its identity: `insert`
reuses the state that has the given origin and otherwise appends one. A state
is named by its position. Each state has a row with one entry per symbol of the
alphabet.

The table itself does not check where its edges and its start lead. `step`
finds no edge out of a state that does not exist, and `Dfa.Closed` says that
every edge leads to one that does.
-/

namespace Munch

/-- The entries of one state, by column. -/
abbrev Row := Vector (Option Nat) 95

/-- One state of a table. -/
structure Dfa.State where
  /-- The names this state stands for. -/
  origin : List Nat
  /-- Where each symbol leads. -/
  row : Row
  /-- The tag of an accepting state. -/
  accept : Option Tag
deriving DecidableEq

/-- A deterministic table. -/
structure Dfa where
  /-- The states by name. -/
  states : Array Dfa.State := #[]
  /-- Name of the state in which reading begins. -/
  start : Nat := 0
deriving DecidableEq

namespace Dfa

/-- The table without states. -/
def empty : Dfa := {}

/-- Number of states. -/
def size (d : Dfa) : Nat :=
  d.states.size

/-- The state of this name. -/
def state? (d : Dfa) (id : Nat) : Option State :=
  d.states[id]?

/-- The origin of a state. -/
def originOf (d : Dfa) (id : Nat) : List Nat :=
  (d.state? id).elim [] State.origin

/-- The tag of a state. -/
def acceptOf (d : Dfa) (id : Nat) : Option Tag :=
  (d.state? id).bind State.accept

/-- The name of the state with exactly this origin. -/
def idOf? (d : Dfa) (origin : List Nat) : Option Nat :=
  d.states.findIdx? (·.origin == origin)

/-- A row without edges. -/
def emptyRow : Row :=
  Vector.replicate 95 none

/-- What `insert` answers: the state with the given origin, whether it is new,
and the table that holds it. -/
structure Inserted where
  id : Nat
  fresh : Bool
  dfa : Dfa

/-- The state with the given origin. A new one gets the given tag and no edges;
for one that is there already the tag is ignored. -/
def insert (d : Dfa) (origin : List Nat) (accept : Option Tag) : Inserted :=
  match d.idOf? origin with
  | some id => ⟨id, false, d⟩
  | none => ⟨d.size, true, { d with states := d.states.push ⟨origin, emptyRow, accept⟩ }⟩

/-- Writes one entry of a row. A byte without column, or a state that does not
exist, leaves the table as it is. -/
def link (d : Dfa) (source : Nat) (b : UInt8) (target : Option Nat) : Dfa :=
  match Alphabet.index? b.toNat with
  | none => d
  | some i =>
    { d with states := d.states.modify source fun s => { s with row := s.row.set i target } }

/-- The number that stands for a missing edge wherever entries are numbers. -/
def noEdge : Nat := 4294967295

/-- An entry given as a number. -/
def edge? (target : Nat) : Option Nat :=
  if target = noEdge then none else some target

/-- Writes an edge; the target `noEdge` removes it. -/
def setEdge (d : Dfa) (source : Nat) (b : UInt8) (target : Nat) : Dfa :=
  d.link source b (edge? target)

/-- Moves the start, which need not exist. -/
def setStart (d : Dfa) (id : Nat) : Dfa :=
  { d with start := id }

/-! ## Reading -/

/-- Where a code leads from a state. -/
def next? (d : Dfa) (id code : Nat) : Option Nat :=
  match d.state? id, Alphabet.index? code with
  | some s, some i => s.row.get i
  | _, _ => none

/-- Where a byte leads from a state. -/
def step (d : Dfa) (id : Nat) (b : UInt8) : Option Nat :=
  d.next? id b.toNat

/-- Where a character leads from a state; only ASCII characters lead anywhere. -/
def stepChar (d : Dfa) (id : Nat) (c : Char) : Option Nat :=
  d.next? id c.toNat

/-- The states that a word passes through from `id`, itself included, up to the
first byte without edge. -/
def trail (d : Dfa) (id : Nat) : List UInt8 → List Nat
  | [] => [id]
  | b :: word =>
    match d.step id b with
    | none => [id]
    | some target => id :: d.trail target word

/-- The state that a whole word leads to from `id`. -/
def walk? (d : Dfa) (id : Nat) (word : List UInt8) : Option Nat :=
  word.foldlM d.step id

/-- Every edge leads to an existing state. -/
def Closed (d : Dfa) : Prop :=
  ∀ id b target, d.step id b = some target → target < d.size

/-- How many states accept. -/
def finalCount (d : Dfa) : Nat :=
  d.states.countP (·.accept.isSome)

/-! ## What writing does to the view of a state -/

@[simp] theorem size_empty : empty.size = 0 := rfl

@[simp] theorem size_link (d : Dfa) (source : Nat) (b : UInt8) (target : Option Nat) :
    (d.link source b target).size = d.size := by
  unfold link
  split <;> simp [size]

theorem state?_link {b : UInt8} {i : Column} (h : Alphabet.index? b.toNat = some i)
    (d : Dfa) (source : Nat) (target : Option Nat) (id : Nat) :
    (d.link source b target).state? id =
      if source = id then (d.state? id).map fun s => { s with row := s.row.set i target }
      else d.state? id := by
  simp [link, h, state?, Array.getElem?_modify]

theorem link_of_no_column {b : UInt8} (h : Alphabet.index? b.toNat = none)
    (d : Dfa) (source : Nat) (target : Option Nat) : d.link source b target = d := by
  simp [link, h]

end Dfa

end Munch
