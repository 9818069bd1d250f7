import Munch.Dfa.Basic
import Munch.Json.Parser
import Munch.Json.Printer

/-!
# Stored tables

A table is stored as JSON: the start, and for each state its origin, its 95
entries with `noEdge` for a missing edge, and its token and priority. A
`StoredTable` is such a text once its shape is checked. `StoredTable.toDfa`
checks what the shape leaves open, in this order: that there are states, that
the start is one, state by state that token and priority come together and that
no earlier state has the same origin, and last that every edge leads to a state.

`Dfa.toBytes` writes a table and `Dfa.ofBytes` reads one.
-/

namespace Munch

/-- One state as it is stored. -/
structure StoredState where
  origin : List Nat
  /-- Entries by column, `Dfa.noEdge` for a missing edge. -/
  next : Vector Nat 95
  token : Option String
  priority : Option Nat
deriving DecidableEq

/-- A table as it is stored. -/
structure StoredTable where
  start : Nat
  states : List StoredState
deriving DecidableEq

/-- Why a stored table is refused. Positions count states from 0. -/
inductive TableError where
  | noStates
  | startOutOfRange (start size : Nat)
  | unpairedTag (position : Nat)
  | duplicateOrigin (position earlier : Nat)
  | edgeOutOfRange (position target size : Nat)
deriving DecidableEq, Repr

/-- The sentence that reports the refusal. -/
def TableError.message : TableError → String
  | .noStates => "table has no states"
  | .startOutOfRange start size => s!"start state {start} out of range (n={size})"
  | .unpairedTag position => s!"state {position}: token and priority must be set together"
  | .duplicateOrigin position earlier =>
    s!"state {position}: duplicate origin set of state {earlier}"
  | .edgeOutOfRange position target size =>
    s!"state {position}: edge to {target} out of range (n={size})"

/-! ## Tables as values -/

namespace StoredState

/-- A state as it is stored. -/
def ofState (s : Dfa.State) : StoredState where
  origin := s.origin
  next := s.row.map (·.getD Dfa.noEdge)
  token := s.accept.map Tag.token
  priority := s.accept.map Tag.priority

/-- The tag of a stored state; none if token and priority do not come together. -/
def tag? (s : StoredState) : Option (Option Tag) :=
  match s.token, s.priority with
  | some token, some priority => some (some ⟨token, priority⟩)
  | none, none => some none
  | _, _ => none

/-- The row of a stored state. -/
def row (s : StoredState) : Row :=
  s.next.map Dfa.edge?

/-- The origin of a stored state, ascending. -/
def sortedOrigin (s : StoredState) : List Nat :=
  s.origin.mergeSort

end StoredState

namespace StoredTable

/-- A table as it is stored. -/
def ofDfa (d : Dfa) : StoredTable where
  start := d.start
  states := d.states.toList.map .ofState

/-- Inserts the state at a position of a stored table, without its edges. -/
def insertState (d : Dfa) (stored : StoredState × Nat) : Except TableError Dfa :=
  let (s, position) := stored
  match s.tag? with
  | none => .error (.unpairedTag position)
  | some accept =>
    let inserted := d.insert s.sortedOrigin accept
    if inserted.fresh then .ok inserted.dfa
    else .error (.duplicateOrigin position inserted.id)

/-- Writes one entry of the state at a position. -/
def writeEntry (size : Nat) (stored : StoredState × Nat) (d : Dfa) (column : Column) :
    Except TableError Dfa :=
  let (s, position) := stored
  let target := s.next.get column
  if target = Dfa.noEdge then .ok d
  else if size ≤ target then .error (.edgeOutOfRange position target size)
  else .ok (d.setEdge position (Alphabet.symbol column) target)

/-- Writes the entries of the state at a position, column by column. -/
def writeRow (size : Nat) (d : Dfa) (stored : StoredState × Nat) : Except TableError Dfa :=
  (List.finRange 95).foldlM (writeEntry size stored) d

/-- The table, if the stored one is in order. All states are there before the first
edge is written. -/
def toDfa (t : StoredTable) : Except TableError Dfa := do
  let size := t.states.length
  if size = 0 then throw .noStates
  if size ≤ t.start then throw (.startOutOfRange t.start size)
  let bare ← t.states.zipIdx.foldlM insertState .empty
  let d ← t.states.zipIdx.foldlM (writeRow size) bare
  return d.setStart t.start

end StoredTable

/-! ## Writing -/

namespace StoredState

/-- The JSON object of a state. -/
def toJson (s : StoredState) : Json :=
  .ofFields [
    ("origin", .array (s.origin.map .nat)),
    ("next", .array (s.next.toList.map .nat)),
    ("token", s.token.elim .null .text),
    ("priority", s.priority.elim .null .nat)]

end StoredState

/-- The JSON object of a table. -/
def StoredTable.toJson (t : StoredTable) : Json :=
  .ofFields [
    ("start", .nat t.start),
    ("states", .array (t.states.map StoredState.toJson))]

/-- A table as text. -/
def Dfa.toBytes (d : Dfa) : List UInt8 :=
  (StoredTable.ofDfa d).toJson.render

/-! ## Reading -/

namespace Json

/-- The largest number that is stored. -/
def maxStored : Nat := 4294967295

/-- A stored number: plain digits, at most `maxStored`. -/
def stored? (j : Json) : Option Nat :=
  j.natUpTo? maxStored

/-- A value that may be `null`. -/
def optional? {α : Type} (read : Json → Option α) : Json → Option (Option α)
  | null => some none
  | j => (read j).map some

/-- An array of values of one shape. -/
def listOf? {α : Type} (read : Json → Option α) (j : Json) : Option (List α) :=
  j.elements?.bind (·.mapM read)

/-- The values of the known keys of an object, in the order of the keys; none
for a key that is absent. A known key must not come twice, other keys do not
count. -/
def select? (keys : List String) (j : Json) : Option (List (Option Json)) := do
  let fields ← j.fields?
  keys.mapM fun key =>
    match fields.filter (·.1 = key) with
    | [] => some none
    | [f] => some (some f.2)
    | _ => none

/-- The parts of a record: an object with these keys, or an array with one
element per key. -/
def record? (keys : List String) : Json → Option (List (Option Json))
  | array js => if js.length = keys.length then some (js.map some) else none
  | j => j.select? keys

end Json

namespace StoredState

/-- A row as it is stored: exactly 95 numbers. -/
def row? (j : Json) : Option (Vector Nat 95) := do
  let entries ← j.listOf? Json.stored?
  if h : entries.length = 95 then some ⟨entries.toArray, by simpa using h⟩ else none

/-- A state, if the value has its shape. -/
def ofJson? (j : Json) : Option StoredState := do
  match ← j.record? ["origin", "next", "token", "priority"] with
  | [some origin, some next, token, priority] =>
    some {
      origin := ← origin.listOf? Json.stored?
      next := ← row? next
      token := ← (token.getD .null).optional? Json.text?
      priority := ← (priority.getD .null).optional? Json.stored? }
  | _ => none

end StoredState

/-- A table, if the value has its shape. -/
def StoredTable.ofJson? (j : Json) : Option StoredTable := do
  match ← j.record? ["start", "states"] with
  | [some start, some states] =>
    some { start := ← start.stored?, states := ← states.listOf? StoredState.ofJson? }
  | _ => none

/-- Why a text is not a table. -/
inductive LoadError where
  /-- The text is not JSON of the right shape. -/
  | malformed
  /-- The stored table is not in order. -/
  | table (e : TableError)
deriving DecidableEq, Repr

/-- Reads a table. -/
def Dfa.ofBytes (bs : List UInt8) : Except LoadError Dfa :=
  match (Json.parse? bs).bind StoredTable.ofJson? with
  | none => .error .malformed
  | some t => t.toDfa.mapError .table

end Munch
