import Munch.Json.Literal

/-!
# Reading JSON

`Json.parse?` reads one value with nothing but blanks around it. Strings are
measured up to their closing quote and kept as bytes: a control code or a
malformed escape is refused here, while bytes that are not UTF-8 are refused
only by whoever asks for the text.

The reader takes a number of rounds that bounds the depth of nesting plus the
length of lists; each value and each list element takes at least one byte, so
two rounds per byte are always enough.
-/

namespace Munch.Json

/-- The blanks between values: space, tab, newline and carriage return. -/
def isBlank (b : UInt8) : Bool :=
  b = 32 || b = 9 || b = 10 || b = 13

/-- Drops leading blanks. -/
def skipBlanks (bs : List UInt8) : List UInt8 :=
  bs.dropWhile isBlank

/-! ## Strings -/

/-- The number of bytes before the closing quote, on top of `passed`. -/
def bodyLength? (passed : Nat) : List UInt8 → Option Nat
  | [] => none
  | b :: bs =>
    if b = 34 then some passed
    else if b < 32 then none
    else if b = 92 then
      match bs with
      | [] => none
      | letter :: rest =>
        if letter = 117 then
          match _h : hex4? rest with
          | some (_, rest) => bodyLength? (passed + 6) rest
          | none => none
        else if (shortMeaning? letter).isSome then bodyLength? (passed + 2) rest
        else none
    else bodyLength? (passed + 1) bs
termination_by bs => bs.length
decreasing_by
  · have := length_hex4? _h
    simp only [List.length_cons]
    omega
  · simp only [List.length_cons]
    omega
  · simp only [List.length_cons]
    omega

/-- The body of a string that begins behind its opening quote, and the rest
behind its closing quote. -/
def body? (bs : List UInt8) : Option (List UInt8 × List UInt8) :=
  (bodyLength? 0 bs).map fun k => (bs.take k, bs.drop (k + 1))

/-! ## Numbers -/

/-- The digits at the front, and the rest. -/
def spanDigits (bs : List UInt8) : List UInt8 × List UInt8 :=
  bs.span isDigit

/-- At least one digit at the front. -/
def digits? (bs : List UInt8) : Option (List UInt8 × List UInt8) :=
  let (ds, rest) := spanDigits bs
  if ds = [] then none else some (ds, rest)

/-- A whole number: a zero, or digits that do not begin with one. -/
def whole? : List UInt8 → Option (List UInt8 × List UInt8)
  | 48 :: rest => some ([48], rest)
  | bs => digits? bs

/-- A point with digits, if there is a point. -/
def fraction? : List UInt8 → Option (List UInt8 × List UInt8)
  | 46 :: rest => (digits? rest).map fun (ds, rest) => (46 :: ds, rest)
  | bs => some ([], bs)

/-- The sign of an exponent, if there is one. -/
def splitSign : List UInt8 → List UInt8 × List UInt8
  | 43 :: rest => ([43], rest)
  | 45 :: rest => ([45], rest)
  | bs => ([], bs)

/-- An exponent, if there is one. -/
def exponent? : List UInt8 → Option (List UInt8 × List UInt8)
  | [] => some ([], [])
  | b :: bs =>
    if b = 101 ∨ b = 69 then
      let (sign, rest) := splitSign bs
      (digits? rest).map fun (ds, rest) => (b :: (sign ++ ds), rest)
    else some ([], b :: bs)

/-- A number literal without its sign. -/
def unsigned? (bs : List UInt8) : Option (List UInt8 × List UInt8) := do
  let (whole, rest) ← whole? bs
  let (fraction, rest) ← fraction? rest
  let (exponent, rest) ← exponent? rest
  some (whole ++ fraction ++ exponent, rest)

/-- A number literal. -/
def number? : List UInt8 → Option (List UInt8 × List UInt8)
  | 45 :: bs => (unsigned? bs).map fun (literal, rest) => (45 :: literal, rest)
  | bs => unsigned? bs

/-! ## Values -/

/-- A value that is written as a word or a number. -/
def atom? : List UInt8 → Option (Json × List UInt8)
  | 110 :: 117 :: 108 :: 108 :: rest => some (null, rest)
  | 116 :: 114 :: 117 :: 101 :: rest => some (bool true, rest)
  | 102 :: 97 :: 108 :: 115 :: 101 :: rest => some (bool false, rest)
  | bs => (number? bs).map fun (literal, rest) => (number literal, rest)

mutual

/-- A value, behind blanks. -/
def value? : (rounds : Nat) → List UInt8 → Option (Json × List UInt8)
  | 0, _ => none
  | rounds + 1, bs =>
    match skipBlanks bs with
    | 34 :: rest => (body? rest).map fun (body, rest) => (string body, rest)
    | 91 :: rest =>
      match skipBlanks rest with
      | 93 :: rest => some (array [], rest)
      | rest => (elementsFrom? rounds rest).map fun (js, rest) => (array js, rest)
    | 123 :: rest =>
      match skipBlanks rest with
      | 125 :: rest => some (object [], rest)
      | rest => (fieldsFrom? rounds rest).map fun (fields, rest) => (object fields, rest)
    | rest => atom? rest

/-- The elements of an array up to its closing bracket. -/
def elementsFrom? : (rounds : Nat) → List UInt8 → Option (List Json × List UInt8)
  | 0, _ => none
  | rounds + 1, bs => do
    let (j, rest) ← value? rounds bs
    match skipBlanks rest with
    | 93 :: rest => some ([j], rest)
    | 44 :: rest =>
      let (js, rest) ← elementsFrom? rounds rest
      some (j :: js, rest)
    | _ => none

/-- The fields of an object up to its closing brace. -/
def fieldsFrom? : (rounds : Nat) → List UInt8 → Option (List (List UInt8 × Json) × List UInt8)
  | 0, _ => none
  | rounds + 1, bs =>
    match skipBlanks bs with
    | 34 :: rest => do
      let (key, rest) ← body? rest
      match skipBlanks rest with
      | 58 :: rest => do
        let (j, rest) ← value? rounds rest
        match skipBlanks rest with
        | 125 :: rest => some ([(key, j)], rest)
        | 44 :: rest => do
          let (fields, rest) ← fieldsFrom? rounds rest
          some ((key, j) :: fields, rest)
        | _ => none
      | _ => none
    | _ => none

end

/-- The value that a whole text denotes. -/
def parse? (bs : List UInt8) : Option Json := do
  let (j, rest) ← value? (2 * bs.length + 2) bs
  if skipBlanks rest = [] then some j else none

end Munch.Json
