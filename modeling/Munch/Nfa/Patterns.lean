import Munch.Nfa.Fragment

/-!
# Common token classes

The classes that several lexicons share, built from the fragment operators:
comments, string literals, alphanumeric runs and numbers.
-/

namespace Munch.Pattern

open Build

/-- The digits `0` to `9`. -/
def digits : List UInt8 := Bytes.range 48 57

/-- The letters `a` to `z`. -/
def lowers : List UInt8 := Bytes.range 97 122

/-- The letters `A` to `Z`. -/
def uppers : List UInt8 := Bytes.range 65 90

/-- One digit. -/
def digit : Build Fragment :=
  oneOf digits (by decide)

/-- `//` and then printable symbols. -/
def lineComment : Build Fragment := do
  let slashes ← text [47, 47] (by decide)
  let body ← star (← oneOf (symbolsExcept 10) (by decide))
  concat slashes body

/-- `/*`, then printable symbols or newlines, then `*/`. -/
def blockComment : Build Fragment := do
  let opener ← text [47, 42] (by decide)
  let body ← star (← anyChar)
  let closer ← text [42, 47] (by decide)
  concat (← concat opener body) closer

/-- A quote, then printable symbols other than the quote, then a quote. The two
quotes are separate fragments, so one quote alone is not a string. -/
def stringLiteral : Build Fragment := do
  let opener ← literal 34
  let body ← star (← oneOf (symbolsExcept 34) (by decide))
  let closer ← literal 34
  concat (← concat opener body) closer

/-- One or more letters or digits. -/
def alphanumeric : Build Fragment := do
  let lower ← oneOf lowers (by decide)
  let upper ← oneOf uppers (by decide)
  let numeral ← digit
  let letter ← union lower upper
  let any ← union letter numeral
  plus any

/-- Digits, a point, digits. -/
def decimalLiteral : Build Fragment := do
  let whole ← plus (← digit)
  let point ← literal 46
  let fraction ← plus (← digit)
  concat (← concat whole point) fraction

end Munch.Pattern
