import Munch.Bytes

/-!
# Characters and their bytes

An ASCII character is one byte, and the bytes of any other character are all
beyond ASCII. So a run of ASCII bytes in front of a text ends between two
characters (`Bytes.exists_prefix_of_ascii`).
-/

namespace Munch.Bytes

/-- The byte of an ASCII character. -/
def ofChar (c : Char) : UInt8 :=
  UInt8.ofNat c.toNat

theorem toNat_ofChar {c : Char} (h : c.toNat ≤ 127) : (ofChar c).toNat = c.toNat := by
  rw [ofChar, UInt8.toNat_ofNat']
  omega

/-- Whether a text is ASCII can be decided. -/
theorem ascii_of_all {cs : List Char} (h : cs.all (·.toNat ≤ 127) = true) :
    ∀ c ∈ cs, c.toNat ≤ 127 := by
  simpa using h

theorem ofChar_injective {c d : Char} (hc : c.toNat ≤ 127) (hd : d.toNat ≤ 127)
    (h : ofChar c = ofChar d) : c = d := by
  have hnat : c.toNat = d.toNat := by rw [← toNat_ofChar hc, h, toNat_ofChar hd]
  exact Char.toNat_inj.mp hnat

theorem exists_ofChar_eq {b : UInt8} (h : b.toNat ≤ 127) :
    ∃ c : Char, c.toNat ≤ 127 ∧ ofChar c = b := by
  have hchar : (Char.ofNat b.toNat).toNat = b.toNat := by
    rw [Char.ofNat, dif_pos (.inl (by omega))]
    rfl
  refine ⟨Char.ofNat b.toNat, by omega, ?_⟩
  rw [ofChar, hchar, UInt8.ofNat_toNat]

theorem utf8EncodeChar_of_ascii {c : Char} (h : c.toNat ≤ 127) :
    String.utf8EncodeChar c = [ofChar c] := by
  have h' : c.val.toNat ≤ 127 := h
  simp only [String.utf8EncodeChar, if_pos h']
  rfl

/-- The bytes of a character beyond ASCII are beyond ASCII. -/
theorem lt_toNat_of_mem_utf8EncodeChar {c : Char} {b : UInt8} (h : 127 < c.toNat)
    (hb : b ∈ String.utf8EncodeChar c) : 127 < b.toNat := by
  have h' : ¬ c.val.toNat ≤ 127 := Nat.not_le.mpr h
  simp only [String.utf8EncodeChar, if_neg h'] at hb
  -- two, three or four bytes, and each has its highest bit set
  split at hb
  · simp only [List.mem_cons, List.not_mem_nil, or_false] at hb
    rcases hb with rfl | rfl <;> (rw [UInt8.toNat_ofNat']; omega)
  · split at hb
    · simp only [List.mem_cons, List.not_mem_nil, or_false] at hb
      rcases hb with rfl | rfl | rfl <;> (rw [UInt8.toNat_ofNat']; omega)
    · simp only [List.mem_cons, List.not_mem_nil, or_false] at hb
      rcases hb with rfl | rfl | rfl | rfl <;> (rw [UInt8.toNat_ofNat']; omega)

theorem utf8EncodeChar_of_not_ascii {c : Char} (h : 127 < c.toNat) :
    ∃ b bs, String.utf8EncodeChar c = b :: bs ∧ 127 < b.toNat := by
  obtain ⟨b, bs, heq⟩ := List.exists_cons_of_ne_nil (String.utf8EncodeChar_ne_nil (c := c))
  refine ⟨b, bs, heq, lt_toNat_of_mem_utf8EncodeChar h ?_⟩
  rw [heq]
  exact List.mem_cons_self

@[simp] theorem ofChars_nil : ofChars [] = [] := rfl

theorem ofChars_cons (c : Char) (cs : List Char) :
    ofChars (c :: cs) = String.utf8EncodeChar c ++ ofChars cs :=
  List.flatMap_cons

@[simp] theorem ofChars_append (cs ds : List Char) :
    ofChars (cs ++ ds) = ofChars cs ++ ofChars ds :=
  List.flatMap_append

theorem ofChars_flatten (css : List (List Char)) :
    ofChars css.flatten = (css.map ofChars).flatten := by
  induction css with
  | nil => rfl
  | cons cs css ih =>
    rw [List.flatten_cons, ofChars_append, ih, List.map_cons, List.flatten_cons]

theorem ofChars_of_ascii {cs : List Char} (h : ∀ c ∈ cs, c.toNat ≤ 127) :
    ofChars cs = cs.map ofChar := by
  induction cs with
  | nil => rfl
  | cons c cs ih =>
    rw [List.forall_mem_cons] at h
    rw [ofChars_cons, utf8EncodeChar_of_ascii h.1, ih h.2]
    rfl

theorem ofChars_eq_nil_iff {cs : List Char} : ofChars cs = [] ↔ cs = [] := by
  cases cs with
  | nil => simp
  | cons c cs => simp [ofChars_cons, String.utf8EncodeChar_ne_nil]

/-- Different texts have different bytes. -/
theorem ofChars_injective {cs ds : List Char} (h : ofChars cs = ofChars ds) : cs = ds := by
  have htext : some (String.ofList cs) = some (String.ofList ds) := by
    rw [← toText?_ofText, ← toText?_ofText, ofText, ofText, String.toList_ofList,
      String.toList_ofList, h]
  exact String.ofList_injective (Option.some.inj htext)

/-- A run of ASCII bytes in front of a text is made of whole characters. -/
theorem exists_prefix_of_ascii {p : List UInt8} {cs : List Char} (hp : p <+: ofChars cs)
    (hascii : ∀ b ∈ p, b.toNat ≤ 127) : ∃ v, v <+: cs ∧ p = ofChars v := by
  induction cs generalizing p with
  | nil =>
    exact ⟨[], List.nil_prefix, List.prefix_nil.mp hp⟩
  | cons c cs ih =>
    cases p with
    | nil => exact ⟨[], List.nil_prefix, rfl⟩
    | cons b p =>
      rw [List.forall_mem_cons] at hascii
      rw [ofChars_cons] at hp
      by_cases hc : c.toNat ≤ 127
      · rw [utf8EncodeChar_of_ascii hc, List.singleton_append, List.cons_prefix_cons] at hp
        obtain ⟨rfl, hrest⟩ := hp
        obtain ⟨v, hv, rfl⟩ := ih hrest hascii.2
        refine ⟨c :: v, List.cons_prefix_cons.mpr ⟨rfl, hv⟩, ?_⟩
        rw [ofChars_cons, utf8EncodeChar_of_ascii hc, List.singleton_append]
      · -- the first byte would be beyond ASCII
        obtain ⟨first, bs, heq, hfirst⟩ := utf8EncodeChar_of_not_ascii (Nat.lt_of_not_le hc)
        rw [heq, List.cons_append, List.cons_prefix_cons] at hp
        have := hascii.1
        rw [hp.1] at this
        omega

end Munch.Bytes
