import Munch.Nfa.Fragment

/-!
# Lexicons

A `Lexicon` is an ordered list of token definitions whose fragments share one
arena. Defining a token stamps the exit of its fragment with the token's name
and its rank in the order of declaration; `define` refuses an exit that carries
a stamp already and then changes nothing. `rooted` adds one root with an ε-edge
to every definition; acceptance stays with the stamped states.
-/

namespace Munch

/-- One token of a lexicon. -/
structure Definition where
  /-- Name of the token. -/
  name : String
  /-- The words of the token. -/
  fragment : Fragment
  /-- Rank in the order of declaration, counted from 1; lower wins. -/
  priority : Nat
deriving DecidableEq, Repr

/-- Token definitions in order of declaration, over one arena. -/
structure Lexicon where
  nfa : Nfa := .empty
  definitions : List Definition := []
deriving DecidableEq, Repr

/-- Why a definition is refused. -/
inductive DefinitionError where
  /-- The exit of the fragment of `token` is stamped as `existing`. -/
  | alreadyStamped (token existing : String) (state : Nat)
  /-- The exit of the fragment is not a state of the arena. -/
  | missingState (state : Nat)
deriving DecidableEq, Repr

/-- The sentence that reports the refusal. -/
def DefinitionError.message : DefinitionError → String
  | .alreadyStamped token existing state =>
    s!"accept state {state} of `{token}` is already stamped as `{existing}`"
  | .missingState state => s!"there is no state {state}"

/-- An automaton with a distinguished root. -/
structure RootedNfa where
  nfa : Nfa
  root : Nat
  definitions : List Definition
deriving DecidableEq, Repr

namespace Lexicon

/-- The lexicon without tokens. -/
def empty : Lexicon := {}

/-- The priority of the next definition. -/
def nextPriority (l : Lexicon) : Nat :=
  l.definitions.length + 1

/-- Appends a definition and stamps its exit, which is taken to be unstamped. -/
def declare (l : Lexicon) (name : String) (f : Fragment) : Lexicon where
  nfa := l.nfa.stamp f.accept ⟨name, l.nextPriority⟩
  definitions := l.definitions ++ [⟨name, f, l.nextPriority⟩]

/-- Builds a fragment in the arena and declares it. -/
def declareBuilt (l : Lexicon) (name : String) (build : Build Fragment) : Lexicon :=
  let built := build.run l.nfa
  { l with nfa := built.2 }.declare name built.1

/-- Appends a definition, unless its exit is missing or stamped. -/
def define (l : Lexicon) (name : String) (f : Fragment) : Except DefinitionError Lexicon :=
  match l.nfa.state? f.accept with
  | none => .error (.missingState f.accept)
  | some s =>
    match s.stamp with
    | some tag => .error (.alreadyStamped name tag.token f.accept)
    | none => .ok (l.declare name f)

/-- Builds a fragment in the arena and defines it. -/
def defineBuilt (l : Lexicon) (name : String) (build : Build Fragment) :
    Except DefinitionError Lexicon :=
  let built := build.run l.nfa
  { l with nfa := built.2 }.define name built.1

/-- Adds a root and then, one by one, an ε-edge from it to the entry of every
definition. -/
def rooted (l : Lexicon) : RootedNfa where
  nfa := l.definitions.foldl (fun n d => n.addEpsilon l.nfa.size d.fragment.start) l.nfa.addState
  root := l.nfa.size
  definitions := l.definitions

end Lexicon

end Munch
