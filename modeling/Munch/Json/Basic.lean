import Munch.Bytes

/-!
# JSON values

A `Json` value keeps its numbers and strings as they are written: a number is
its literal, a string the bytes between its quotes with the escapes still in
place. Reading and printing a text therefore lose nothing, and what a literal
means is asked for where it is used.
-/

namespace Munch

/-- A JSON value. -/
inductive Json where
  | null
  | bool (b : Bool)
  /-- A number by its literal. -/
  | number (literal : List UInt8)
  /-- A string by the bytes between its quotes. -/
  | string (body : List UInt8)
  | array (elements : List Json)
  /-- Fields in order of writing; a key is the bytes between its quotes. -/
  | object (fields : List (List UInt8 × Json))
deriving Inhabited

end Munch
