import Munch.Alphabet
import Munch.Bytes
import Munch.Nfa.Basic

/-!
# Fragments

A `Fragment` is a part of an arena with one entry and one exit; it stands for
the words that lead from the entry to the exit. The operators below compose
fragments inside one arena: they add fresh states and link them by ε-edges, and
never copy the states of their operands. Each operator is an action on the
arena, so a composition reads in the order in which its states are created.

The operators `oneOf` and `text` need at least one byte; `oneOf?` and `text?`
take any number and yield no fragment for none.
-/

namespace Munch

/-- A part of an arena with one entry and one exit. -/
structure Fragment where
  /-- State in which reading begins. -/
  start : Nat
  /-- State in which reading ends. -/
  accept : Nat
deriving DecidableEq, Repr

/-- An action that may grow the arena. -/
abbrev Build := StateM Nfa

namespace Build

/-- The one-byte word `b`. -/
def literal (b : UInt8) : Build Fragment := fun n =>
  let start := n.size
  let accept := n.size + 1
  (⟨start, accept⟩, n.addState.addState.addEdge start b accept)

/-- A word of `p` followed by a word of `q`. -/
def concat (p q : Fragment) : Build Fragment := fun n =>
  (⟨p.start, q.accept⟩, n.addEpsilon p.accept q.start)

/-- A word of `p` or a word of `q`. -/
def union (p q : Fragment) : Build Fragment := fun n =>
  let start := n.size
  let accept := n.size + 1
  (⟨start, accept⟩,
    n.addState.addState
      |>.addEpsilon start p.start
      |>.addEpsilon start q.start
      |>.addEpsilon p.accept accept
      |>.addEpsilon q.accept accept)

/-- Any number of words of `p`, one after the other. -/
def star (p : Fragment) : Build Fragment := fun n =>
  let start := n.size
  let accept := n.size + 1
  (⟨start, accept⟩,
    n.addState.addState
      |>.addEpsilon start p.start
      |>.addEpsilon start accept
      |>.addEpsilon p.accept p.start
      |>.addEpsilon p.accept accept)

/-- One or more words of `p`. The repetition shares the states of `p`. -/
def plus (p : Fragment) : Build Fragment := do
  let more ← star p
  concat p more

/-! ## Words and classes -/

/-- The word made of the given bytes. -/
def text : (bs : List UInt8) → bs ≠ [] → Build Fragment
  | b :: bs, _ => do
    bs.foldlM (fun p c => do concat p (← literal c)) (← literal b)

/-- Any one of the given bytes. -/
def oneOf : (bs : List UInt8) → bs ≠ [] → Build Fragment
  | b :: bs, _ => do
    bs.foldlM (fun p c => do union p (← literal c)) (← literal b)

/-- The word made of the given bytes; no fragment for no byte. -/
def text? (bs : List UInt8) : Build (Option Fragment) :=
  if h : bs = [] then pure none else some <$> text bs h

/-- Any one of the given bytes; no fragment for no byte. -/
def oneOf? (bs : List UInt8) : Build (Option Fragment) :=
  if h : bs = [] then pure none else some <$> oneOf bs h

/-- Any byte from `lo` to `hi`; no fragment if `hi < lo`. -/
def range? (lo hi : UInt8) : Build (Option Fragment) :=
  oneOf? (Bytes.range lo hi)

/-- The printable symbols other than `b`. -/
def symbolsExcept (b : UInt8) : List UInt8 :=
  Alphabet.symbols.filter (· ≠ b)

/-- Any printable symbol other than `b`. -/
def anyExcept? (b : UInt8) : Build (Option Fragment) :=
  oneOf? (symbolsExcept b)

/-- Any printable symbol, or the newline. -/
def anyChar : Build Fragment := do
  let printable ← oneOf Alphabet.symbols (by decide)
  let newline ← literal 10
  union printable newline

end Build

end Munch
