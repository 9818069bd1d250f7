/-!
# Tags

What an accepting state says about the text that led to it.
-/

namespace Munch

/-- The token that is recognized and how strongly: of several tags the one with
the lowest priority counts. -/
structure Tag where
  /-- Name of the token. -/
  token : String
  /-- Rank in the order of declaration, counted from 1. -/
  priority : Nat
deriving DecidableEq, Repr

end Munch
