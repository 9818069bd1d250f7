import Munch.Nfa.Closure
import Munch.Nfa.Fragment

/-!
# Reading words with an automaton

`Nfa.run` keeps the set of all states that a word can lead to, closed under
ε-edges; `Nfa.accepts` asks whether the exit of a fragment is among them.
-/

namespace Munch.Nfa

/-- The closed set of states after one more byte. -/
def advance (n : Nfa) (ids : List Nat) (b : UInt8) : List Nat :=
  n.closure (n.move ids b)

/-- The states that a word leads to from `start`, ascending. -/
def run (n : Nfa) (start : Nat) (word : List UInt8) : List Nat :=
  word.foldl n.advance (n.closure [start])

/-- Whether the fragment stands for the word. -/
def accepts (n : Nfa) (f : Fragment) (word : List UInt8) : Bool :=
  (n.run f.start word).contains f.accept

end Munch.Nfa
