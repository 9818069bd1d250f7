import Munch.IdSet
import Munch.Nfa.Basic

/-!
# ε-closure

`Nfa.closure` collects every state that ε-edges reach from some seed. It is a
search with a list of pending states and a set of expanded ones; a state is
expanded when it is taken from the list for the first time, so each is expanded
once and the search ends also on cycles. The result is ascending, which makes
equal sets equal lists.
-/

namespace Munch.Nfa

/-- Expands the pending states and all that ε-edges reach from them, on top of
those expanded already. Names outside the arena are dropped. -/
def expand (n : Nfa) (seen : IdSet n.size) (pending : List Nat) : IdSet n.size :=
  match pending with
  | [] => seen
  | id :: rest =>
    if seen.lacks id then n.expand (seen.insert id) (n.epsilonOf id ++ rest)
    else n.expand seen rest
termination_by (seen.room, pending.length)
decreasing_by
  · exact Prod.Lex.left _ _ (IdSet.room_insert_lt ‹_›)
  · exact Prod.Lex.right _ (by simp)

/-- All states that ε-edges reach from the seeds, the seeds included, ascending. -/
def closure (n : Nfa) (seeds : List Nat) : List Nat :=
  (n.expand (IdSet.empty n.size) seeds).toList

/-- Where the edges labelled `b` lead from a list of states, each state once, in
the order in which they are met. -/
def move (n : Nfa) (ids : List Nat) (b : UInt8) : List Nat :=
  (ids.flatMap fun id => n.targets id b).eraseDups

/-- The stamp that counts for a set of states: the one of lowest priority, and
the first of those on a tie. -/
def bestStamp (n : Nfa) (ids : List Nat) : Option Tag :=
  (ids.filterMap n.stampOf).minOn? Tag.priority

end Munch.Nfa
