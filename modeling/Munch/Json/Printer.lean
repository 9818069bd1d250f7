import Munch.Json.Basic

/-!
# Printing JSON

`Json.render` writes a value without any blank. Fields keep their order and
literals stand as they are.
-/

namespace Munch.Json

mutual

/-- Writes a value in front of some bytes. -/
def renderOnto : Json → List UInt8 → List UInt8
  | null, rest => 110 :: 117 :: 108 :: 108 :: rest
  | bool true, rest => 116 :: 114 :: 117 :: 101 :: rest
  | bool false, rest => 102 :: 97 :: 108 :: 115 :: 101 :: rest
  | number literal, rest => literal ++ rest
  | string body, rest => 34 :: (body ++ 34 :: rest)
  | array [], rest => 91 :: 93 :: rest
  | array (j :: js), rest => 91 :: j.renderOnto (elementsOnto js rest)
  | object [], rest => 123 :: 125 :: rest
  | object ((key, j) :: fields), rest =>
    123 :: 34 :: (key ++ 34 :: 58 :: j.renderOnto (fieldsOnto fields rest))

/-- Writes the remaining elements of an array, each behind a comma, and the
closing bracket. -/
def elementsOnto : List Json → List UInt8 → List UInt8
  | [], rest => 93 :: rest
  | j :: js, rest => 44 :: j.renderOnto (elementsOnto js rest)

/-- Writes the remaining fields of an object, each behind a comma, and the
closing brace. -/
def fieldsOnto : List (List UInt8 × Json) → List UInt8 → List UInt8
  | [], rest => 125 :: rest
  | (key, j) :: fields, rest =>
    44 :: 34 :: (key ++ 34 :: 58 :: j.renderOnto (fieldsOnto fields rest))

end

/-- The text of a value. -/
def render (j : Json) : List UInt8 :=
  j.renderOnto []

end Munch.Json
