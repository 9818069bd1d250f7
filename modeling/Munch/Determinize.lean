import Munch.Dfa.Basic
import Munch.Lexicon
import Munch.Nfa.Closure

/-!
# Subset construction

`RootedNfa.determinize` turns an automaton with a root into a table. A state of
the table stands for a closed set of states; the start stands for the closure
of the root. States are explored in the order in which they are found, and the
symbols of each in ascending order, so the numbering of the table follows from
the automaton alone.

Each explored state is one more subset of the arena, so `2 ^ size` rounds are
enough and the count of rounds is never what ends the search.
-/

namespace Munch

namespace Nfa

/-- Adds the edge of one symbol to an explored state, with its target if that
set is new. A symbol that leads nowhere gets no edge. -/
def exploreSymbol (n : Nfa) (current : Nat) (d : Dfa) (b : UInt8) : Dfa :=
  match n.move (d.originOf current) b with
  | [] => d
  | moved =>
    let set := n.closure moved
    let found := d.insert set (n.bestStamp set)
    found.dfa.link current b (some found.id)

/-- Adds the edges of all symbols to one state. -/
def explore (n : Nfa) (d : Dfa) (current : Nat) : Dfa :=
  Alphabet.symbols.foldl (n.exploreSymbol current) d

/-- Explores the states from `current` on, at most `rounds` of them. -/
def saturate (n : Nfa) : (rounds : Nat) → (current : Nat) → Dfa → Dfa
  | 0, _, d => d
  | rounds + 1, current, d =>
    if current < d.size then n.saturate rounds (current + 1) (n.explore d current) else d

end Nfa

namespace RootedNfa

/-- The table that holds the closure of the root and nothing else. -/
def seed (r : RootedNfa) : Dfa :=
  let set := r.nfa.closure [r.root]
  (Dfa.empty.insert set (r.nfa.bestStamp set)).dfa

/-- The table of all sets of states that words of the alphabet lead to. -/
def determinize (r : RootedNfa) : Dfa :=
  r.nfa.saturate (Nat.pow 2 r.nfa.size) 0 r.seed

end RootedNfa

/-- The table of a lexicon. -/
def Lexicon.table (l : Lexicon) : Dfa :=
  l.rooted.determinize

end Munch
