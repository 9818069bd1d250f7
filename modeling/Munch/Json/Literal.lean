import Munch.Json.Basic

/-!
# String and number literals

The bytes of a string literal between its quotes are its body. `escape` writes
the body of a text and `unescape?` reads a body back; the two-letter escapes,
and `\u` with four hexadecimal digits, paired for characters beyond the basic
plane, are understood. `Json.text` and `Json.text?`, `Json.nat` and `Json.nat?`
carry this over to values.
-/

namespace Munch.Json

/-! ## Hexadecimal digits -/

/-- The lower-case hexadecimal digit of a number below 16. -/
def hexDigit (n : Nat) : UInt8 :=
  if n < 10 then UInt8.ofNat (48 + n) else UInt8.ofNat (87 + n)

/-- The value of a hexadecimal digit of either case. -/
def hexValue? (b : UInt8) : Option Nat :=
  if 48 ≤ b ∧ b ≤ 57 then some (b.toNat - 48)
  else if 97 ≤ b ∧ b ≤ 102 then some (b.toNat - 87)
  else if 65 ≤ b ∧ b ≤ 70 then some (b.toNat - 55)
  else none

/-- The number that four hexadecimal digits at the front denote, and the rest. -/
def hex4? : List UInt8 → Option (Nat × List UInt8)
  | a :: b :: c :: d :: rest => do
    let a ← hexValue? a
    let b ← hexValue? b
    let c ← hexValue? c
    let d ← hexValue? d
    some (((a * 16 + b) * 16 + c) * 16 + d, rest)
  | _ => none

/-! ## Writing -/

/-- The escape of a character, if it has a two-letter one: the letter behind the
backslash. -/
def shortEscape? (c : Char) : Option UInt8 :=
  if c = '"' then some 34
  else if c = '\\' then some 92
  else if c.toNat = 8 then some 98
  else if c.toNat = 9 then some 116
  else if c.toNat = 10 then some 110
  else if c.toNat = 12 then some 102
  else if c.toNat = 13 then some 114
  else none

/-- How a character is written in a string: quotes, backslashes and the codes
below 32 are escaped, all else stands for itself. -/
def escapeChar (c : Char) : List UInt8 :=
  match shortEscape? c with
  | some letter => [92, letter]
  | none =>
    if c.toNat < 32 then [92, 117, 48, 48, hexDigit (c.toNat / 16), hexDigit (c.toNat % 16)]
    else String.utf8EncodeChar c

/-- The body of the literal of a text. -/
def escape (s : String) : List UInt8 :=
  s.toList.flatMap escapeChar

/-! ## Reading -/

/-- What the letter of a two-letter escape stands for. -/
def shortMeaning? (letter : UInt8) : Option UInt8 :=
  if letter = 34 ∨ letter = 92 ∨ letter = 47 then some letter
  else if letter = 98 then some 8
  else if letter = 102 then some 12
  else if letter = 110 then some 10
  else if letter = 114 then some 13
  else if letter = 116 then some 9
  else none

/-- Whether a unit is the first half of a pair. -/
def isHighHalf (unit : Nat) : Bool :=
  0xD800 ≤ unit && unit ≤ 0xDBFF

/-- Whether a unit is the second half of a pair. -/
def isLowHalf (unit : Nat) : Bool :=
  0xDC00 ≤ unit && unit ≤ 0xDFFF

/-- The second half of a pair, written as an escape of its own. -/
def lowHalf? : List UInt8 → Option (Nat × List UInt8)
  | 92 :: 117 :: rest => do
    let (unit, rest) ← hex4? rest
    if isLowHalf unit then some (unit, rest) else none
  | _ => none

/-- The character of a `\u` escape, read behind the `u`, and the rest. A half of
a pair that stands alone is no character. -/
def unicodeEscape? (bs : List UInt8) : Option (Char × List UInt8) := do
  let (unit, rest) ← hex4? bs
  if isHighHalf unit then
    let (low, rest) ← lowHalf? rest
    some (Char.ofNat (0x10000 + (unit - 0xD800) * 0x400 + (low - 0xDC00)), rest)
  else if isLowHalf unit then none
  else some (Char.ofNat unit, rest)

theorem length_hex4? {bs rest : List UInt8} {unit : Nat} (h : hex4? bs = some (unit, rest)) :
    rest.length < bs.length := by
  unfold hex4? at h
  split at h
  · simp only [Option.bind_eq_bind, Option.bind_eq_some_iff, Option.some.injEq,
      Prod.mk.injEq] at h
    obtain ⟨_, _, _, _, _, _, _, _, _, rfl⟩ := h
    simp only [List.length_cons]
    omega
  · simp at h

theorem length_lowHalf? {bs rest : List UInt8} {unit : Nat} (h : lowHalf? bs = some (unit, rest)) :
    rest.length < bs.length := by
  unfold lowHalf? at h
  split at h
  · simp only [Option.bind_eq_bind, Option.bind_eq_some_iff] at h
    obtain ⟨⟨_, _⟩, h4, h⟩ := h
    have := length_hex4? h4
    split at h
    · simp only [Option.some.injEq, Prod.mk.injEq] at h
      obtain ⟨_, rfl⟩ := h
      simp only [List.length_cons]
      omega
    · simp at h
  · simp at h

theorem length_unicodeEscape? {bs rest : List UInt8} {c : Char}
    (h : unicodeEscape? bs = some (c, rest)) : rest.length < bs.length := by
  unfold unicodeEscape? at h
  simp only [Option.bind_eq_bind, Option.bind_eq_some_iff] at h
  obtain ⟨⟨unit, r⟩, h4, h⟩ := h
  have h4 := length_hex4? h4
  split at h
  · simp only [Option.bind_eq_some_iff, Option.some.injEq, Prod.mk.injEq] at h
    obtain ⟨⟨_, _⟩, hl, _, rfl⟩ := h
    have := length_lowHalf? hl
    dsimp only
    omega
  · split at h
    · simp at h
    · simp only [Option.some.injEq, Prod.mk.injEq] at h
      obtain ⟨_, rfl⟩ := h
      exact h4

/-- The bytes that a body stands for, on top of those read already, latest
first. -/
def unescapeOnto (done : List UInt8) : List UInt8 → Option (List UInt8)
  | [] => some done.reverse
  | b :: bs =>
    if b = 92 then
      match bs with
      | [] => none
      | letter :: rest =>
        if letter = 117 then
          match _h : unicodeEscape? rest with
          | some (c, rest) => unescapeOnto ((String.utf8EncodeChar c).reverse ++ done) rest
          | none => none
        else
          match shortMeaning? letter with
          | some meaning => unescapeOnto (meaning :: done) rest
          | none => none
    else unescapeOnto (b :: done) bs
termination_by bs => bs.length
decreasing_by
  · have := length_unicodeEscape? _h
    simp only [List.length_cons]
    omega
  · simp only [List.length_cons]
    omega
  · simp only [List.length_cons]
    omega

/-- The text that a body stands for, if its escapes are complete and its bytes
are UTF-8. -/
def unescape? (body : List UInt8) : Option String :=
  (unescapeOnto [] body).bind Bytes.toText?

/-! ## Values of literals -/

/-- A text as a value. -/
def text (s : String) : Json :=
  string (escape s)

/-- The text of a string value. -/
def text? : Json → Option String
  | string body => unescape? body
  | _ => none

/-- Whether a byte is a decimal digit. -/
def isDigit (b : UInt8) : Bool :=
  48 ≤ b && b ≤ 57

/-- A number as a value, in plain digits. -/
def nat (n : Nat) : Json :=
  number ((Nat.toDigits 10 n).map fun c => UInt8.ofNat c.toNat)

/-- The value of a number that is written in plain digits. -/
def nat? : Json → Option Nat
  | number literal =>
    if literal.all isDigit then
      some (Nat.ofDigitChars 10 (literal.map fun b => Char.ofNat b.toNat) 0)
    else none
  | _ => none

/-- The value of a number that is written as plain digits and is at most `max`. -/
def natUpTo? (max : Nat) (j : Json) : Option Nat :=
  j.nat?.filter (· ≤ max)

/-- The elements of an array. -/
def elements? : Json → Option (List Json)
  | array elements => some elements
  | _ => none

/-- The object with these fields. -/
def ofFields (fields : List (String × Json)) : Json :=
  object (fields.map fun f => (escape f.1, f.2))

/-- The fields of an object with their keys as texts. -/
def fields? : Json → Option (List (String × Json))
  | object fields => fields.mapM fun f => (unescape? f.1).map (·, f.2)
  | _ => none

end Munch.Json
