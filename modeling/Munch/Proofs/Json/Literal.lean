import Mathlib.Data.List.Basic
import Mathlib.Data.List.TakeDrop
import Munch.Json.Parser
import Munch.Proofs.Bytes
import Munch.Proofs.Decimal

/-!
# Literals are read back

A number is written as plain digits without a leading zero, which is a whole literal
of the grammar (`number?_digits`) and means the number again (`nat?_nat`). A text is
written character by character: `escapeChar_cases` says which of the three forms a
character takes, and both readers of strings, the one that looks for the closing
quote and the one that decodes, follow it (`body?_escape`, `unescape?_escape`).
-/

namespace Munch.Json

variable {b : UInt8} {ds rest : List UInt8}

/-! ## Numbers -/

/-- The bytes do not continue a number. -/
def Ends (rest : List UInt8) : Prop :=
  ∀ b ∈ rest.head?, isDigit b = false ∧ b ≠ 46 ∧ b ≠ 101 ∧ b ≠ 69

theorem ends_nil : Ends [] := by
  intro b hb
  cases hb

theorem ends_cons (h : isDigit b = false ∧ b ≠ 46 ∧ b ≠ 101 ∧ b ≠ 69) (rest : List UInt8) :
    Ends (b :: rest) := by
  intro b' hb'
  rw [← Option.some.inj hb']
  exact h

/-- The literal of a number. -/
def digits (n : Nat) : List UInt8 :=
  (Nat.toDigits 10 n).map Bytes.ofChar

theorem nat_eq_number (n : Nat) : nat n = number (digits n) := rfl

theorem toNat_of_mem_toDigits {n : Nat} {c : Char} (h : c ∈ Nat.toDigits 10 n) :
    48 ≤ c.toNat ∧ c.toNat ≤ 57 := by
  have hdigit := Nat.isDigit_of_mem_toDigits (by decide) (by decide) h
  rw [Char.isDigit, Bool.and_eq_true, decide_eq_true_iff, decide_eq_true_iff] at hdigit
  exact hdigit

theorem isDigit_of_mem_digits {n : Nat} (h : b ∈ digits n) : isDigit b = true := by
  obtain ⟨c, hc, rfl⟩ := List.mem_map.mp h
  have hdigit := toNat_of_mem_toDigits hc
  have hbyte : (Bytes.ofChar c).toNat = c.toNat := Bytes.toNat_ofChar (by omega)
  rw [isDigit, Bool.and_eq_true, decide_eq_true_iff, decide_eq_true_iff, UInt8.le_iff_toNat_le,
    UInt8.le_iff_toNat_le, hbyte]
  exact hdigit

theorem digits_ne_nil (n : Nat) : digits n ≠ [] := by
  rw [digits, Ne, List.map_eq_nil_iff]
  exact Nat.toDigits_ne_nil

theorem head_digits_ne {n : Nat} (h : 0 < n) : 48 ∉ (digits n).head? := by
  intro hmem
  rw [digits, List.head?_map, Option.mem_def, Option.map_eq_some_iff] at hmem
  obtain ⟨c, hc, hbyte⟩ := hmem
  have hdigit := toNat_of_mem_toDigits (List.mem_of_mem_head? hc)
  have hzero : c = '0' := Bytes.ofChar_injective (by omega) (by decide) hbyte
  rw [hzero] at hc
  exact head_toDigits_ne h hc

theorem digits?_append (hne : ds ≠ []) (hds : ∀ b ∈ ds, isDigit b = true) (hrest : Ends rest) :
    digits? (ds ++ rest) = some (ds, rest) := by
  obtain ⟨htake, hdrop⟩ := split_at_stop hds fun b hb => (hrest b hb).1
  simp only [digits?, spanDigits, List.span_eq_takeWhile_dropWhile, htake, hdrop, if_neg hne]

theorem whole?_digits (n : Nat) (hrest : Ends rest) :
    whole? (digits n ++ rest) = some (digits n, rest) := by
  rcases Nat.eq_zero_or_pos n with rfl | hn
  · rfl
  · unfold whole?
    split
    · rename_i heq
      have hhead := head_digits_ne hn
      rw [← List.head?_append_of_ne_nil _ (digits_ne_nil n), heq] at hhead
      exact absurd rfl hhead
    · exact digits?_append (digits_ne_nil n) (fun _ => isDigit_of_mem_digits) hrest

theorem fraction?_of_ends (h : Ends rest) : fraction? rest = some ([], rest) := by
  unfold fraction?
  split
  · exact absurd rfl (h 46 rfl).2.1
  · rfl

theorem exponent?_of_ends (h : Ends rest) : exponent? rest = some ([], rest) := by
  unfold exponent?
  split
  · rfl
  · rename_i b bs
    obtain ⟨_, _, hlower, hupper⟩ := h b rfl
    rw [if_neg (not_or.mpr ⟨hlower, hupper⟩)]

theorem head_digits_append (n : Nat) (rest : List UInt8) :
    ∃ b bs, digits n ++ rest = b :: bs ∧ isDigit b = true := by
  cases hdigits : digits n with
  | nil => exact absurd hdigits (digits_ne_nil n)
  | cons b bs =>
    refine ⟨b, bs ++ rest, rfl, isDigit_of_mem_digits (n := n) ?_⟩
    rw [hdigits]
    exact List.mem_cons_self

theorem number?_digits (n : Nat) (hrest : Ends rest) :
    number? (digits n ++ rest) = some (digits n, rest) := by
  have hunsigned : unsigned? (digits n ++ rest) = some (digits n, rest) := by
    simp only [unsigned?, whole?_digits n hrest, fraction?_of_ends hrest, exponent?_of_ends hrest,
      Option.bind_eq_bind, Option.bind_some, List.append_nil]
  unfold number?
  split
  · rename_i heq
    obtain ⟨b, bs, hcons, hb⟩ := head_digits_append n rest
    rw [heq] at hcons
    rw [← (List.cons.inj hcons).1] at hb
    exact absurd hb (by decide)
  · exact hunsigned

theorem nat?_nat (n : Nat) : (nat n).nat? = some n := by
  have hall : (digits n).all isDigit = true :=
    List.all_eq_true.mpr fun _ => isDigit_of_mem_digits
  have hchar : ∀ c ∈ Nat.toDigits 10 n, Char.ofNat (Bytes.ofChar c).toNat = id c := by
    intro c hc
    have hdigit := toNat_of_mem_toDigits hc
    rw [Bytes.toNat_ofChar (by omega), Char.ofNat_toNat, id]
  have hchars : (digits n).map (fun b => Char.ofNat b.toNat) = Nat.toDigits 10 n := by
    rw [digits, List.map_map]
    exact (List.map_congr_left hchar).trans (List.map_id _)
  rw [nat_eq_number, nat?, if_pos hall, hchars, Nat.ofDigitChars_ten_toDigits]

/-! ## Characters of a text -/

/-- The characters that have a letter of their own. -/
theorem mem_of_shortEscape? {c : Char} {letter : UInt8} (h : shortEscape? c = some letter) :
    c ∈ ['"', '\\', '\x08', '\t', '\n', '\x0c', '\r'] := by
  by_contra hne
  simp only [List.mem_cons, List.not_mem_nil, or_false, not_or] at hne
  obtain ⟨hquote, hslash, h8, h9, h10, h12, h13⟩ := hne
  have hcode : ∀ d : Char, c ≠ d → ¬c.toNat = d.toNat := fun d hd heq => hd (Char.toNat_inj.mp heq)
  rw [shortEscape?, if_neg hquote, if_neg hslash, if_neg (show ¬c.toNat = 8 from hcode _ h8),
    if_neg (show ¬c.toNat = 9 from hcode _ h9), if_neg (show ¬c.toNat = 10 from hcode _ h10),
    if_neg (show ¬c.toNat = 12 from hcode _ h12), if_neg (show ¬c.toNat = 13 from hcode _ h13)] at h
  cases h

/-- A letter behind a backslash means the character that it was chosen for. -/
theorem of_shortEscape? {c : Char} {letter : UInt8} (h : shortEscape? c = some letter) :
    letter ≠ 117 ∧ c.toNat ≤ 127 ∧ shortMeaning? letter = some (Bytes.ofChar c) := by
  have hmem := mem_of_shortEscape? h
  simp only [List.mem_cons, List.not_mem_nil, or_false] at hmem
  rcases hmem with rfl | rfl | rfl | rfl | rfl | rfl | rfl <;>
    (obtain rfl := Option.some.inj h; decide)

theorem hexValue?_hexDigit {n : Nat} (h : n < 16) : hexValue? (hexDigit n) = some n := by
  have hall : ∀ n < 16, hexValue? (hexDigit n) = some n := by decide
  exact hall n h

theorem hex4?_control {n : Nat} (h : n < 32) (rest : List UInt8) :
    hex4? (48 :: 48 :: hexDigit (n / 16) :: hexDigit (n % 16) :: rest) = some (n, rest) := by
  have hzero : hexValue? 48 = some 0 := by decide
  have hvalue : ((0 * 16 + 0) * 16 + n / 16) * 16 + n % 16 = n := by omega
  simp only [hex4?, hzero, hexValue?_hexDigit (show n / 16 < 16 by omega),
    hexValue?_hexDigit (show n % 16 < 16 by omega), Option.bind_eq_bind, Option.bind_some, hvalue]

theorem unicodeEscape?_control {c : Char} (h : c.toNat < 32) (rest : List UInt8) :
    unicodeEscape? (48 :: 48 :: hexDigit (c.toNat / 16) :: hexDigit (c.toNat % 16) :: rest) =
      some (c, rest) := by
  have hhigh : isHighHalf c.toNat = false := by
    rw [isHighHalf, Bool.and_eq_false_iff, decide_eq_false_iff_not]
    omega
  have hlow : isLowHalf c.toNat = false := by
    rw [isLowHalf, Bool.and_eq_false_iff, decide_eq_false_iff_not]
    omega
  simp only [unicodeEscape?, hex4?_control h, Option.bind_eq_bind, Option.bind_some, hhigh, hlow,
    Bool.false_eq_true, if_false, Char.ofNat_toNat]

/-- A byte that stands for itself: no quote, control code or backslash. -/
def IsPlain (b : UInt8) : Prop :=
  b ≠ 34 ∧ ¬b < 32 ∧ b ≠ 92

theorem isPlain_of_mem_utf8EncodeChar {c : Char} (hcontrol : ¬c.toNat < 32) (hquote : c ≠ '"')
    (hslash : c ≠ '\\') (hb : b ∈ String.utf8EncodeChar c) : IsPlain b := by
  by_cases hascii : c.toNat ≤ 127
  · rw [Bytes.utf8EncodeChar_of_ascii hascii, List.mem_singleton] at hb
    rw [hb]
    refine ⟨?_, ?_, ?_⟩
    · exact fun heq => hquote (Bytes.ofChar_injective hascii (by decide) heq)
    · rw [UInt8.lt_iff_toNat_lt, Bytes.toNat_ofChar hascii]
      exact hcontrol
    · exact fun heq => hslash (Bytes.ofChar_injective hascii (by decide) heq)
  · have hbeyond := Bytes.lt_toNat_of_mem_utf8EncodeChar (Nat.lt_of_not_le hascii) hb
    refine ⟨?_, ?_, ?_⟩
    · rintro rfl
      exact absurd hbeyond (by decide)
    · rw [UInt8.lt_iff_toNat_lt]
      exact Nat.not_lt.mpr (Nat.le_trans (by decide) (Nat.le_of_lt hbeyond))
    · rintro rfl
      exact absurd hbeyond (by decide)

/-- How a character is written: by a letter that means it, by its code, or by its
own bytes. -/
theorem escapeChar_cases (c : Char) :
    (∃ letter b, escapeChar c = [92, letter] ∧ letter ≠ 117 ∧ shortMeaning? letter = some b ∧
      String.utf8EncodeChar c = [b]) ∨
    (c.toNat < 32 ∧
      escapeChar c = [92, 117, 48, 48, hexDigit (c.toNat / 16), hexDigit (c.toNat % 16)]) ∨
    (escapeChar c = String.utf8EncodeChar c ∧ ∀ b ∈ escapeChar c, IsPlain b) := by
  unfold escapeChar
  split
  · rename_i letter h
    obtain ⟨hletter, hascii, hmeaning⟩ := of_shortEscape? h
    exact .inl ⟨letter, _, rfl, hletter, hmeaning, Bytes.utf8EncodeChar_of_ascii hascii⟩
  · rename_i hshort
    split
    · rename_i hcontrol
      exact .inr (.inl ⟨hcontrol, rfl⟩)
    · rename_i hcontrol
      refine .inr (.inr ⟨rfl, fun b hb => isPlain_of_mem_utf8EncodeChar hcontrol ?_ ?_ hb⟩)
      · rintro rfl
        exact absurd hshort (by decide)
      · rintro rfl
        exact absurd hshort (by decide)

/-! ## Looking for the closing quote -/

theorem bodyLength?_plain {bs : List UInt8} (h : ∀ b ∈ bs, IsPlain b) (passed : Nat)
    (rest : List UInt8) :
    bodyLength? passed (bs ++ rest) = bodyLength? (passed + bs.length) rest := by
  induction bs generalizing passed with
  | nil => rfl
  | cons b bs ih =>
    rw [List.forall_mem_cons] at h
    obtain ⟨⟨hquote, hcontrol, hslash⟩, hbs⟩ := h
    rw [List.cons_append, bodyLength?.eq_def]
    simp only [hquote, hcontrol, hslash, if_false]
    rw [ih hbs, List.length_cons, Nat.add_assoc, Nat.add_comm 1]

theorem bodyLength?_letter {letter : UInt8} (h : letter ≠ 117)
    (hmeaning : (shortMeaning? letter).isSome = true) (passed : Nat) (rest : List UInt8) :
    bodyLength? passed (92 :: letter :: rest) = bodyLength? (passed + 2) rest := by
  rw [bodyLength?.eq_def]
  simp only [h, hmeaning, if_true, if_false]
  rfl

theorem bodyLength?_code {bs : List UInt8} {unit : Nat} (h : hex4? bs = some (unit, rest))
    (passed : Nat) : bodyLength? passed (92 :: 117 :: bs) = bodyLength? (passed + 6) rest := by
  have hslash : ¬(92 : UInt8) = 34 ∧ ¬(92 : UInt8) < 32 := by decide
  rw [bodyLength?.eq_def]
  simp only [hslash, if_true, if_false]
  split
  · rename_i heq
    rw [h] at heq
    obtain ⟨_, rfl⟩ := Prod.mk.inj (Option.some.inj heq)
    rfl
  · rename_i heq
    rw [h] at heq
    cases heq

/-- The search passes over a written character. -/
theorem bodyLength?_escapeChar (c : Char) (passed : Nat) (rest : List UInt8) :
    bodyLength? passed (escapeChar c ++ rest) =
      bodyLength? (passed + (escapeChar c).length) rest := by
  rcases escapeChar_cases c with ⟨letter, b, heq, hletter, hmeaning, _⟩ | ⟨hcontrol, heq⟩ |
    ⟨_, hplain⟩
  · rw [heq]
    exact bodyLength?_letter hletter (by rw [hmeaning]; rfl) passed rest
  · rw [heq]
    exact bodyLength?_code (hex4?_control hcontrol rest) passed
  · exact bodyLength?_plain hplain passed rest

/-! ## Decoding -/

theorem unescapeOnto_plain {bs : List UInt8} (h : ∀ b ∈ bs, IsPlain b) (done rest : List UInt8) :
    unescapeOnto done (bs ++ rest) = unescapeOnto (bs.reverse ++ done) rest := by
  induction bs generalizing done with
  | nil => rfl
  | cons b bs ih =>
    rw [List.forall_mem_cons] at h
    rw [List.cons_append, unescapeOnto.eq_def]
    simp only [h.1.2.2, if_false]
    rw [ih h.2, List.reverse_cons, List.append_assoc, List.singleton_append]

theorem unescapeOnto_letter {letter : UInt8} (h : letter ≠ 117)
    (hmeaning : shortMeaning? letter = some b) (done rest : List UInt8) :
    unescapeOnto done (92 :: letter :: rest) = unescapeOnto (b :: done) rest := by
  rw [unescapeOnto.eq_def]
  simp only [h, hmeaning, if_true, if_false]

theorem unescapeOnto_code {bs : List UInt8} {c : Char} (h : unicodeEscape? bs = some (c, rest))
    (done : List UInt8) :
    unescapeOnto done (92 :: 117 :: bs) =
      unescapeOnto ((String.utf8EncodeChar c).reverse ++ done) rest := by
  rw [unescapeOnto.eq_def]
  simp only [if_true]
  split
  · rename_i heq
    rw [h] at heq
    obtain ⟨rfl, rfl⟩ := Prod.mk.inj (Option.some.inj heq)
    rfl
  · rename_i heq
    rw [h] at heq
    cases heq

/-- A written character stands for its own bytes. -/
theorem unescapeOnto_escapeChar (c : Char) (done rest : List UInt8) :
    unescapeOnto done (escapeChar c ++ rest) =
      unescapeOnto ((String.utf8EncodeChar c).reverse ++ done) rest := by
  rcases escapeChar_cases c with ⟨letter, b, heq, hletter, hmeaning, hbyte⟩ | ⟨hcontrol, heq⟩ |
    ⟨heq, hplain⟩
  · rw [heq, hbyte]
    exact unescapeOnto_letter hletter hmeaning done rest
  · rw [heq]
    exact unescapeOnto_code (unicodeEscape?_control hcontrol rest) done
  · rw [← heq]
    exact unescapeOnto_plain hplain done rest

/-! ## Texts -/

theorem bodyLength?_escape (s : String) (passed : Nat) (rest : List UInt8) :
    bodyLength? passed (escape s ++ 34 :: rest) = some (passed + (escape s).length) := by
  rw [escape]
  induction s.toList generalizing passed with
  | nil =>
    rw [List.flatMap_nil, List.nil_append, bodyLength?.eq_def]
    rfl
  | cons c cs ih =>
    rw [List.flatMap_cons, List.append_assoc, bodyLength?_escapeChar, ih, List.length_append,
      Nat.add_assoc]

/-- A written text ends where its closing quote is. -/
theorem body?_escape (s : String) (rest : List UInt8) :
    body? (escape s ++ 34 :: rest) = some (escape s, rest) := by
  rw [body?, bodyLength?_escape, Option.map_some, Nat.zero_add, List.take_left, ← List.drop_drop,
    List.drop_left]
  rfl

theorem unescape?_escape (s : String) : unescape? (escape s) = some s := by
  have honto : ∀ done, unescapeOnto done (escape s) = some (done.reverse ++ Bytes.ofText s) := by
    rw [escape, Bytes.ofText]
    induction s.toList with
    | nil =>
      intro done
      rw [List.flatMap_nil, unescapeOnto, Bytes.ofChars_nil, List.append_nil]
    | cons c cs ih =>
      intro done
      rw [List.flatMap_cons, unescapeOnto_escapeChar, ih, Bytes.ofChars_cons, List.reverse_append,
        List.reverse_reverse, List.append_assoc]
  rw [unescape?, honto, List.reverse_nil, List.nil_append, Option.bind_some, Bytes.toText?_ofText]

end Munch.Json
