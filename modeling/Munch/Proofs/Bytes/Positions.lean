import Munch.Proofs.Bytes

/-!
# Byte positions of a text

A byte position counts the bytes of a text that stand before it. A text can be
cut at a position between two of its characters, and nowhere else (`Bytes.cut`).

A search for a pattern goes over a text byte by byte (`Bytes.find?`). If the
pattern is ASCII, it is never found inside of a character: what stands before it
is made of whole characters (`find?_ofChars_append`), so the text can be cut there.
-/

namespace Munch

/-- What stops a reader that goes by byte positions. -/
inductive Fault where
  /-- What is cut out ends before it starts or behind the end of the text, or it is
  a text and does not start and end between characters. -/
  | cut (start stop : Nat)
  /-- A state is looked up that the table does not have. -/
  | state (id : Nat)
deriving DecidableEq, Repr

theorem exists_of_bind_eq_ok {α β : Type} {x : Except Fault α} {f : α → Except Fault β} {r : β}
    (h : x >>= f = .ok r) : ∃ a, x = .ok a ∧ f a = .ok r := by
  cases x with
  | error fault => cases h
  | ok a => exact ⟨a, rfl, h⟩

namespace Bytes

/-- The number of bytes of a list of characters. -/
def size (cs : List Char) : Nat :=
  (ofChars cs).length

/-- The text between two byte positions. -/
def cut (source : String) (start stop : Nat) : Except Fault String :=
  if h : start ≤ stop ∧ String.Pos.Raw.IsValid source ⟨start⟩ ∧
      String.Pos.Raw.IsValid source ⟨stop⟩ then
    .ok (source.extract ⟨⟨start⟩, h.2.1⟩ ⟨⟨stop⟩, h.2.2⟩)
  else .error (.cut start stop)

/-- The bytes between two byte positions, which need not be between characters. -/
def window (source : String) (start stop : Nat) : Except Fault (List UInt8) :=
  if start ≤ stop ∧ stop ≤ source.utf8ByteSize then
    .ok (((ofText source).drop start).take (stop - start))
  else .error (.cut start stop)

/-- Where the pattern, which is not empty, first stands. -/
def find? (pattern : List UInt8) : List UInt8 → Option Nat
  | [] => none
  | b :: bs =>
    if pattern.isPrefixOf (b :: bs) then some 0 else (find? pattern bs).map (· + 1)

/-! ## Sizes -/

@[simp] theorem size_nil : size [] = 0 := rfl

@[simp] theorem size_append (cs ds : List Char) : size (cs ++ ds) = size cs + size ds := by
  simp [size]

theorem size_cons (c : Char) (cs : List Char) : size (c :: cs) = c.utf8Size + size cs := by
  simp [size, ofChars_cons]

theorem size_of_ascii {cs : List Char} (h : ∀ c ∈ cs, c.toNat ≤ 127) : size cs = cs.length := by
  simp [size, ofChars_of_ascii h]

theorem length_le_size (cs : List Char) : cs.length ≤ size cs := by
  induction cs with
  | nil => exact Nat.le_refl 0
  | cons c cs ih =>
    have := c.utf8Size_pos
    rw [size_cons, List.length_cons]
    omega

@[simp] theorem ofText_ofList (cs : List Char) : ofText (String.ofList cs) = ofChars cs := by
  rw [ofText, String.toList_ofList]

theorem utf8ByteSize_ofList (cs : List Char) : (String.ofList cs).utf8ByteSize = size cs := by
  rw [← String.size_toByteArray, ← toByteArray_ofText, List.size_toByteArray, ofText_ofList, size]

theorem utf8ByteSize_eq (source : String) : source.utf8ByteSize = size source.toList := by
  rw [← utf8ByteSize_ofList, String.ofList_toList]

/-! ## Cuts -/

/-- The position behind the first characters of a text is between two of its
characters. -/
theorem isValid_size {source : String} {before rest : List Char}
    (h : source.toList = before ++ rest) : String.Pos.Raw.IsValid source ⟨size before⟩ := by
  rw [String.Pos.Raw.isValid_iff_exists_append]
  refine ⟨String.ofList before, String.ofList rest, ?_, ?_⟩
  · rw [← String.ofList_append, ← h, String.ofList_toList]
  · rw [← utf8ByteSize_ofList]
    rfl

theorem cut_of_eq_append {source : String} {before middle rest : List Char}
    (h : source.toList = before ++ (middle ++ rest)) :
    cut source (size before) (size (before ++ middle)) = .ok (String.ofList middle) := by
  have hstop : source.toList = (before ++ middle) ++ rest := by rw [h, List.append_assoc]
  rw [cut, dif_pos ⟨by simp, isValid_size h, isValid_size hstop⟩]
  congr 1
  apply String.toByteArray_inj.mp
  have hsource : source.toByteArray = (String.ofList before).toByteArray ++
      ((String.ofList middle).toByteArray ++ (String.ofList rest).toByteArray) := by
    rw [← String.toByteArray_append, ← String.toByteArray_append, ← String.ofList_append,
      ← String.ofList_append, ← h, String.ofList_toList]
  have hsize : ∀ cs, size cs = (String.ofList cs).toByteArray.size := fun cs =>
    (utf8ByteSize_ofList cs).symm
  rw [String.toByteArray_extract, hsource]
  show ByteArray.extract _ (size before) (size (before ++ middle)) = _
  rw [size_append, hsize before, hsize middle, ← Nat.add_zero (ByteArray.size _), Nat.add_assoc,
    ByteArray.extract_append_size_add, Nat.zero_add, ByteArray.extract_append_eq_left rfl]

/-- No text is cut inside of a character. -/
example : cut "é" 0 1 = .error (.cut 0 1) :=
  rfl

/-- All that is behind some characters. -/
theorem cut_to_end {source : String} {before rest : List Char}
    (h : source.toList = before ++ rest) :
    cut source (size before) source.utf8ByteSize = .ok (String.ofList rest) := by
  have h' : source.toList = before ++ (rest ++ []) := by rw [h, List.append_nil]
  rw [utf8ByteSize_eq, h, cut_of_eq_append h']

theorem drop_size {source : String} {before rest : List Char} (h : source.toList = before ++ rest) :
    (ofText source).drop (size before) = ofChars rest := by
  rw [ofText, h, ofChars_append, size, List.drop_left]

theorem window_of_eq_append {source : String} {before middle rest : List Char}
    (h : source.toList = before ++ (middle ++ rest)) :
    window source (size before) (size (before ++ middle)) = .ok (ofChars middle) := by
  have hstop : size (before ++ middle) ≤ source.utf8ByteSize := by
    rw [utf8ByteSize_eq, h, ← List.append_assoc, size_append (before ++ middle)]
    exact Nat.le_add_right _ _
  rw [window, if_pos ⟨by simp, hstop⟩, drop_size h, ofChars_append, size_append,
    Nat.add_sub_cancel_left, size, List.take_left]

/-- The newlines of a text are those of its bytes. -/
theorem count_newline (cs : List Char) : (ofChars cs).count 10 = cs.count '\n' := by
  induction cs with
  | nil => rfl
  | cons c cs ih =>
    have hfirst : (String.utf8EncodeChar c).count 10 = if c == '\n' then 1 else 0 := by
      by_cases hc : c.toNat ≤ 127
      · have hiff : ofChar c = 10 ↔ c = '\n' :=
          ⟨ofChar_injective hc (show '\n'.toNat ≤ 127 by decide), fun h => by rw [h]; rfl⟩
        rw [utf8EncodeChar_of_ascii hc, List.count_singleton]
        simp only [beq_iff_eq, hiff]
      · have hne : ¬c == '\n' := by
          rw [beq_iff_eq]
          rintro rfl
          exact hc (by decide)
        rw [if_neg hne, List.count_eq_zero]
        exact fun hmem =>
          absurd (lt_toNat_of_mem_utf8EncodeChar (Nat.lt_of_not_le hc) hmem) (by decide)
    rw [ofChars_cons, List.count_append, hfirst, ih, List.count_cons, Nat.add_comm]

/-! ## Searches -/

/-- ASCII characters stand in front of a text if their bytes do. -/
theorem ofChars_prefix_iff {p cs : List Char} (hascii : ∀ c ∈ p, c.toNat ≤ 127) :
    ofChars p <+: ofChars cs ↔ p <+: cs := by
  constructor
  · intro h
    have hbytes : ∀ b ∈ ofChars p, b.toNat ≤ 127 := by
      rw [ofChars_of_ascii hascii]
      intro b hb
      obtain ⟨c, hc, rfl⟩ := List.mem_map.mp hb
      rw [toNat_ofChar (hascii c hc)]
      exact hascii c hc
    obtain ⟨v, hv, heq⟩ := exists_prefix_of_ascii h hbytes
    rw [ofChars_injective heq]
    exact hv
  · rintro ⟨rest, rfl⟩
    rw [ofChars_append]
    exact List.prefix_append _ _

/-- A pattern is not found where none of the bytes can be its first. -/
theorem find?_append {first : UInt8} {more bs rest : List UInt8} (h : ∀ b ∈ bs, first ≠ b) :
    find? (first :: more) (bs ++ rest) = (find? (first :: more) rest).map (· + bs.length) := by
  induction bs with
  | nil => simp
  | cons b bs ih =>
    rw [List.forall_mem_cons] at h
    rw [List.cons_append, find?, if_neg (by simp [h.1]), ih h.2, Option.map_map]
    rfl

theorem find?_cons {pattern bs : List UInt8} {b : UInt8} (h : ¬pattern <+: b :: bs) :
    find? pattern (b :: bs) = (find? pattern bs).map (· + 1) := by
  rw [find?, if_neg (by rwa [List.isPrefixOf_iff_prefix])]

theorem pos_of_find? {pattern bs : List UInt8} {i : Nat} (hfront : ¬pattern <+: bs)
    (h : find? pattern bs = some i) : 0 < i := by
  cases bs with
  | nil => cases h
  | cons b bs =>
    rw [find?_cons hfront, Option.map_eq_some_iff] at h
    obtain ⟨j, _, rfl⟩ := h
    exact Nat.succ_pos j

variable {p : List Char}

/-- A search for ASCII characters goes from character to character. -/
theorem find?_ofChars_cons (hp : p ≠ []) (hascii : ∀ c ∈ p, c.toNat ≤ 127) {c : Char}
    {cs : List Char} (h : ¬p <+: c :: cs) :
    find? (ofChars p) (ofChars (c :: cs)) =
      (find? (ofChars p) (ofChars cs)).map (· + c.utf8Size) := by
  by_cases hc : c.toNat ≤ 127
  · have hsize : c.utf8Size = 1 := by
      rw [← String.length_utf8EncodeChar, utf8EncodeChar_of_ascii hc, List.length_singleton]
    rw [← ofChars_prefix_iff hascii] at h
    rw [ofChars_cons, utf8EncodeChar_of_ascii hc, List.singleton_append] at h ⊢
    rw [find?_cons h, hsize]
  · -- the pattern begins with an ASCII byte, and none of these is one
    obtain ⟨f, more, rfl⟩ := List.exists_cons_of_ne_nil hp
    rw [List.forall_mem_cons] at hascii
    have hfirst : ∀ b ∈ String.utf8EncodeChar c, ofChar f ≠ b := by
      rintro b hb rfl
      have hb' := lt_toNat_of_mem_utf8EncodeChar (Nat.lt_of_not_le hc) hb
      have hf := hascii.1
      rw [toNat_ofChar hf] at hb'
      omega
    rw [ofChars_cons c, ofChars_cons f, utf8EncodeChar_of_ascii hascii.1, List.singleton_append,
      find?_append hfirst, String.length_utf8EncodeChar]

/-- Where ASCII characters stand for the first time, what is before them is made of
whole characters. -/
theorem find?_ofChars_append (hp : p ≠ []) (hascii : ∀ c ∈ p, c.toNat ≤ 127)
    {before rest : List Char} (hfirst : ∀ v, v <:+ before → v ≠ [] → ¬p <+: v ++ rest)
    (hrest : p <+: rest) : find? (ofChars p) (ofChars (before ++ rest)) = some (size before) := by
  induction before with
  | nil =>
    have hbytes := (ofChars_prefix_iff hascii).mpr hrest
    obtain ⟨b, bs, hb⟩ := List.exists_cons_of_ne_nil (l := ofChars rest) (by
      intro hnil
      rw [ofChars_eq_nil_iff.mp hnil] at hrest
      exact hp (List.prefix_nil.mp hrest))
    rw [List.nil_append, hb, find?, ← hb, if_pos (List.isPrefixOf_iff_prefix.mpr hbytes)]
    rfl
  | cons c before ih =>
    have hhere : ¬p <+: c :: (before ++ rest) :=
      hfirst (c :: before) List.suffix_rfl (List.cons_ne_nil _ _)
    have hlater := ih fun v hv => hfirst v (hv.trans (List.suffix_cons c before))
    rw [List.cons_append, find?_ofChars_cons hp hascii hhere, hlater, size_cons, Option.map_some,
      Nat.add_comm]

theorem find?_ofChars_eq_none (hp : p ≠ []) (hascii : ∀ c ∈ p, c.toNat ≤ 127) {cs : List Char}
    (h : ¬p <:+: cs) : find? (ofChars p) (ofChars cs) = none := by
  induction cs with
  | nil => rfl
  | cons c cs ih =>
    rw [List.infix_cons_iff, not_or] at h
    rw [find?_ofChars_cons hp hascii h.1, ih h.2, Option.map_none]

end Bytes

end Munch
