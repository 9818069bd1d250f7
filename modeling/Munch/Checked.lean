import Munch.Determinize
import Munch.Nfa.Simulation
import Munch.Scan.Scanner

/-!
# Operations that refuse missing states

Arenas and tables are open to edits that leave edges to states that do not
exist. The plain operations pass over such a state in silence. The operations
below answer `none` where the plain one would visit a missing state, and
otherwise what the plain one answers. An edge to a missing state is no fault
until it is followed.
-/

namespace Munch

namespace Nfa

/-- Adds an edge out of an existing state. -/
def addEdge? (n : Nfa) (source : Nat) (b : UInt8) (target : Nat) : Option Nfa :=
  if n.has source then some (n.addEdge source b target) else none

/-- Adds an ε-edge out of an existing state. -/
def addEpsilon? (n : Nfa) (source target : Nat) : Option Nfa :=
  if n.has source then some (n.addEpsilon source target) else none

/-- Stamps an existing state, and says whether the stamp is new. -/
def stamp? (n : Nfa) (id : Nat) (tag : Tag) : Option (Bool × Nfa) :=
  if n.has id then some ((n.stampOf id).isNone, n.stamp id tag) else none

/-- Where the edges of an existing state lead. -/
def targets? (n : Nfa) (id : Nat) (b : UInt8) : Option (List Nat) :=
  if n.has id then some (n.targets id b) else none

/-- Where the edges of existing states lead. -/
def move? (n : Nfa) (ids : List Nat) (b : UInt8) : Option (List Nat) :=
  if ids.all n.has then some (n.move ids b) else none

/-- The closure, if the seeds and all that ε-edges reach from them exist. -/
def closure? (n : Nfa) (seeds : List Nat) : Option (List Nat) :=
  let reached := n.closure seeds
  if seeds.all n.has && reached.all (fun id => (n.epsilonOf id).all n.has) then some reached
  else none

/-- Whether the fragment stands for the word, if only existing states are
visited on the way. -/
def accepts? (n : Nfa) (f : Fragment) (word : List UInt8) : Option Bool := do
  let first ← n.closure? [f.start]
  let final ← word.foldlM (fun ids b => (n.move? ids b).bind n.closure?) first
  some (final.contains f.accept)

/-- Whether all that a state leads to exists: its ε-edges, and its edges over
the alphabet. -/
def intact (n : Nfa) (id : Nat) : Bool :=
  (n.epsilonOf id).all n.has &&
    (n.edgesOf id).all fun e => (Alphabet.index? e.1.toNat).isNone || n.has e.2

end Nfa

namespace Build

/-- Runs an operator on fragments whose exits exist once the operator has added
its own states. -/
def withExits (added : Nat) (exits : List Nat) (act : Build Fragment) :
    StateT Nfa Option Fragment := fun n =>
  if exits.all (· < n.size + added) then some (act.run n) else none

/-- `concat` for a first operand whose exit exists. -/
def concat? (p q : Fragment) : StateT Nfa Option Fragment :=
  withExits 0 [p.accept] (concat p q)

/-- `union` for operands whose exits exist beside the two new states. -/
def union? (p q : Fragment) : StateT Nfa Option Fragment :=
  withExits 2 [p.accept, q.accept] (union p q)

/-- `star` for an operand whose exit exists beside the two new states. -/
def star? (p : Fragment) : StateT Nfa Option Fragment :=
  withExits 2 [p.accept] (star p)

/-- `plus` for an operand whose exit exists beside the two new states. -/
def plus? (p : Fragment) : StateT Nfa Option Fragment :=
  withExits 2 [p.accept] (plus p)

end Build

/-- The table of the automaton, if no word of the alphabet leads to a missing
state. -/
def RootedNfa.determinize? (r : RootedNfa) : Option Dfa :=
  let d := r.determinize
  if r.nfa.has r.root && d.states.all (fun s => s.origin.all r.nfa.intact) then some d else none

/-- The table of the lexicon, if no word of the alphabet leads to a missing
state. -/
def Lexicon.table? (l : Lexicon) : Option Dfa :=
  l.rooted.determinize?

namespace Dfa

/-- Writes an edge of an existing state. A byte without column needs no state. -/
def setEdge? (d : Dfa) (source : Nat) (b : UInt8) (target : Nat) : Option Dfa :=
  if (Alphabet.index? b.toNat).isNone || source < d.size then some (d.setEdge source b target)
  else none

/-- Whether reading a text from a state enters only existing states. -/
def staysInside (d : Dfa) (id : Nat) : List Char → Bool
  | [] => true
  | c :: cs =>
    match d.stepChar id c with
    | none => true
    | some target => target < d.size && d.staysInside target cs

end Dfa

namespace Scanner

/-- Whether the next item is found without entering a missing state. Only the
search for a lexeme enters states: not so an owed token, the end, or an
unterminated comment. -/
def isSafe (d : Dfa) (s : Scanner) : Bool :=
  s.pending.isSome || s.halted ||
    let rest := s.skipTrivia.rest
    Trivia.opensBlock rest || d.staysInside d.start rest

/-- The next item, if it is found without entering a missing state. -/
def next? (d : Dfa) (s : Scanner) : Option (Option Item × Scanner) :=
  if s.isSafe d then some (s.next d) else none

/-- `drainOnto` that gives up at a missing state. -/
def drainOnto? (d : Dfa) (s : Scanner) (collected : List Item) : Option (List Item × Scanner) :=
  if s.isSafe d then
    match _h : s.next d with
    | (none, s') => some (collected.reverse, s')
    | (some item, s') => s'.drainOnto? d (item :: collected)
  else none
termination_by s.weight
decreasing_by exact weight_next_lt _h

/-- All items that are left, if they are found without entering a missing state. -/
def drain? (d : Dfa) (s : Scanner) : Option (List Item × Scanner) :=
  s.drainOnto? d []

end Scanner

/-- The tokens and diagnostics of a whole source, if they are found without
entering a missing state. -/
def Dfa.tokenize? (d : Dfa) (source : String) : Option ScanResult :=
  ((Scanner.ofText source).drain? d).map fun out => .ofItems out.1

end Munch
