import Munch.Dfa.Basic

/-!
# Listings of a table

`Dfa.transitions` enumerates the edges of a table by state and then by symbol;
`Dfa.listing` writes them as lines of three columns under a head line.
-/

namespace Munch

/-- One edge of a table. -/
structure Transition where
  source : Nat
  symbol : UInt8
  target : Nat
deriving DecidableEq, Repr

/-- The line of a listing: state, label and next state, divided by tabs. -/
def Transition.line (t : Transition) : String :=
  s!"{t.source}\t{Alphabet.label t.symbol}\t{t.target}\n"

namespace Dfa

/-- The edges of one row, by symbol. -/
def rowTransitions (source : Nat) (row : Row) : List Transition :=
  (List.finRange 95).filterMap fun i =>
    (row.get i).map fun target => ⟨source, Alphabet.symbol i, target⟩

/-- All edges, by state and then by symbol. -/
def transitions (d : Dfa) : List Transition :=
  d.states.toList.zipIdx.flatMap fun (s, id) => rowTransitions id s.row

/-- The edges as a text, one line each. -/
def listing (d : Dfa) : String :=
  "State\tInput\tNextState\n" ++ String.join (d.transitions.map Transition.line)

end Dfa

end Munch
