/-!
# Decimal numbers

A `Decimal` is a number as it is written: a sign, digits with a point somewhere
among them, and an exponent. `Decimal.parse?` reads the grammar
`[+-] digits [. digits] [e [+-] digits]` in which at least one digit stands
before the exponent; `Decimal.render` writes the value with a fixed number of
places, a half rounded away from zero. All arithmetic is exact.
-/

namespace Munch

/-- The number `± unscaled · 10 ^ (exponent - places)`. -/
structure Decimal where
  /-- Whether a minus sign is written. -/
  negative : Bool
  /-- The digits read as one number, without the point. -/
  unscaled : Nat
  /-- How many digits stand after the point. -/
  places : Nat
  /-- The power of ten that is written behind the digits. -/
  exponent : Int
deriving DecidableEq, Repr

namespace Decimal

/-- The largest exponent, of either sign, that is read. -/
def maxExponent : Nat := 1000

/-- The value of a list of characters that are all digits. -/
def digits? (cs : List Char) : Option Nat :=
  if cs.all Char.isDigit then some (Nat.ofDigitChars 10 cs 0) else none

/-- A leading sign, minus being `true`, and what follows it. -/
def splitSign : List Char → Bool × List Char
  | '-' :: cs => (true, cs)
  | '+' :: cs => (false, cs)
  | cs => (false, cs)

/-- Whether a character divides the digits from the exponent. -/
def isExponentMark (c : Char) : Bool :=
  c = 'e' || c = 'E'

/-- An exponent: an optional sign and at least one digit, of a size up to
`maxExponent`. -/
def exponent? (cs : List Char) : Option Int :=
  let (negative, ds) := splitSign cs
  if ds = [] then none
  else do
    let size ← digits? ds
    if size ≤ maxExponent then
      some (if negative then -(size : Int) else size)
    else none

/-- Reads a number. -/
def parse? (cs : List Char) : Option Decimal := do
  let (negative, number) := splitSign cs
  let mantissa := number.takeWhile (!isExponentMark ·)
  let exponent ←
    match number.dropWhile (!isExponentMark ·) with
    | [] => some 0
    | _ :: text => exponent? text
  let whole := mantissa.takeWhile (· ≠ '.')
  let fraction := (mantissa.dropWhile (· ≠ '.')).drop 1
  if whole ++ fraction = [] then none
  else
    let unscaled ← digits? (whole ++ fraction)
    some { negative, unscaled, places := fraction.length, exponent }

/-- The size of the number in units of `10 ^ -scale`. Where places are cut off, what
remains is doubled to see whether it is a half or more. -/
def units (d : Decimal) (scale : Nat) : Nat :=
  let shift : Int := d.places - d.exponent - scale
  if shift ≤ 0 then d.unscaled * Nat.pow 10 (-shift).toNat
  else
    let divisor := Nat.pow 10 shift.toNat
    let quotient := d.unscaled / divisor
    let remainder := d.unscaled % divisor
    if divisor ≤ remainder * 2 then quotient + 1 else quotient

/-- Digits with zeros in front, where there are not more than `scale` of them
without. -/
def padded (digits : List Char) (scale : Nat) : List Char :=
  if digits.length ≤ scale then List.replicate (scale + 1 - digits.length) '0' ++ digits
  else digits

/-- A number of units of `10 ^ -scale` written with a point before the last
`scale` digits, or without a point if there are none. -/
def fixedPoint (units scale : Nat) : List Char :=
  let digits := Nat.toDigits 10 units
  if scale = 0 then digits
  else
    let digits := padded digits scale
    let place := digits.length - scale
    digits.take place ++ '.' :: digits.drop place

/-- The number rounded to `scale` places. Zero is written without a sign. -/
def render (d : Decimal) (scale : Nat) : List Char :=
  let units := d.units scale
  if d.negative ∧ units ≠ 0 then '-' :: fixedPoint units scale else fixedPoint units scale

/-- The number that a text denotes, rounded to `scale` places; none if the text
is not a number. -/
def round? (cs : List Char) (scale : Nat) : Option (List Char) :=
  (parse? cs).map (·.render scale)

end Decimal

end Munch
