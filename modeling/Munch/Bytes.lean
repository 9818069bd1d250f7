/-!
# Texts as bytes

A text is stored as the UTF-8 bytes of its characters. `Bytes.toText?` reads
bytes back and refuses those that are not UTF-8; `toText?_ofText` says that what
was written is read back.
-/

namespace Munch.Bytes

/-- The UTF-8 bytes of a list of characters. -/
def ofChars (cs : List Char) : List UInt8 :=
  cs.flatMap String.utf8EncodeChar

/-- The UTF-8 bytes of a text. -/
def ofText (s : String) : List UInt8 :=
  ofChars s.toList

/-- The text that the bytes encode, if they are UTF-8. -/
def toText? (bs : List UInt8) : Option String :=
  String.fromUTF8? bs.toByteArray

/-- All bytes from `lo` to `hi`, ascending; none if `hi < lo`. -/
def range (lo hi : UInt8) : List UInt8 :=
  (List.range' lo.toNat (hi.toNat + 1 - lo.toNat)).map UInt8.ofNat

theorem toByteArray_ofText (s : String) : (ofText s).toByteArray = s.toByteArray :=
  String.utf8Encode_toList

theorem toText?_ofText (s : String) : toText? (ofText s) = some s := by
  unfold toText? String.fromUTF8?
  rw [toByteArray_ofText, dif_pos s.isValidUTF8]
  rfl

end Munch.Bytes
