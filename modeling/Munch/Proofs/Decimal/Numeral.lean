import Mathlib.Data.List.Basic
import Munch.Proofs.Decimal

/-!
# The grammar of numbers

`IsNumeral` says how a number is written: an optional sign, digits with at most one
point among them, and optionally a mark, a sign and digits for the exponent. It
looks at the whole text at once and does not say how to find its parts.
`parse?_eq_some_iff` says that reading finds them: a text is read as a number
exactly if it is a numeral of that number.
-/

namespace Munch.Decimal

variable {cs ds rest sign mantissa tail whole fraction : List Char} {negative : Bool}

/-! ## The parts of a number -/

/-- A sign, and whether it is a minus. -/
inductive IsSign : Bool → List Char → Prop
  | absent : IsSign false []
  | plus : IsSign false ['+']
  | minus : IsSign true ['-']

/-- The digits of a number, those behind the point apart. Without a point there are
none behind it. -/
inductive IsMantissa : List Char → List Char → List Char → Prop
  | plain (whole : List Char) : IsMantissa whole [] whole
  | pointed (whole fraction : List Char) : IsMantissa whole fraction (whole ++ '.' :: fraction)

/-- An exponent of a size up to `maxExponent`, with its mark. -/
inductive IsExponent : Int → List Char → Prop
  | absent : IsExponent 0 []
  | marked {mark : Char} {negative : Bool} {sign ds : List Char} :
    mark ∈ ['e', 'E'] → IsSign negative sign → ds ≠ [] → (∀ c ∈ ds, c.isDigit = true) →
    Nat.ofDigitChars 10 ds 0 ≤ maxExponent →
    IsExponent (if negative then -(Nat.ofDigitChars 10 ds 0 : Int) else Nat.ofDigitChars 10 ds 0)
      (mark :: (sign ++ ds))

/-- The text is written for the number: a sign, at least one digit, and an exponent. -/
inductive IsNumeral : List Char → Decimal → Prop
  | intro {negative : Bool} {exponent : Int} {sign whole fraction mantissa tail : List Char} :
    IsSign negative sign → IsMantissa whole fraction mantissa → whole ++ fraction ≠ [] →
    (∀ c ∈ whole ++ fraction, c.isDigit = true) → IsExponent exponent tail →
    IsNumeral (sign ++ (mantissa ++ tail))
      ⟨negative, Nat.ofDigitChars 10 (whole ++ fraction) 0, fraction.length, exponent⟩

/-! ## Signs -/

theorem exists_isSign_splitSign (cs : List Char) :
    ∃ sign, IsSign (splitSign cs).1 sign ∧ cs = sign ++ (splitSign cs).2 := by
  unfold splitSign
  split
  · exact ⟨['-'], .minus, rfl⟩
  · exact ⟨['+'], .plus, rfl⟩
  · exact ⟨[], .absent, rfl⟩

/-- A sign is split off, if what follows does not look like another one. -/
theorem IsSign.splitSign_append (h : IsSign negative sign)
    (hrest : ∀ c ∈ rest.head?, c ≠ '-' ∧ c ≠ '+') :
    splitSign (sign ++ rest) = (negative, rest) := by
  cases h with
  | plus => rfl
  | minus => rfl
  | absent =>
    rw [List.nil_append]
    unfold splitSign
    split
    · exact absurd rfl (hrest '-' rfl).1
    · exact absurd rfl (hrest '+' rfl).2
    · rfl

theorem digits?_eq_some_iff {n : Nat} :
    digits? ds = some n ↔ (∀ c ∈ ds, c.isDigit = true) ∧ Nat.ofDigitChars 10 ds 0 = n := by
  simp only [digits?, Option.ite_none_right_eq_some, List.all_eq_true, Option.some.injEq]

/-! ## The exponent -/

theorem exponent?_eq_some_iff {e : Int} : exponent? cs = some e ↔
    ∃ negative sign ds, IsSign negative sign ∧ cs = sign ++ ds ∧ ds ≠ [] ∧
      (∀ c ∈ ds, c.isDigit = true) ∧ Nat.ofDigitChars 10 ds 0 ≤ maxExponent ∧
      e = if negative then -(Nat.ofDigitChars 10 ds 0 : Int) else Nat.ofDigitChars 10 ds 0 := by
  constructor
  · intro h
    obtain ⟨sign, hsign, hcs⟩ := exists_isSign_splitSign cs
    simp only [exponent?, Option.ite_none_left_eq_some, Option.bind_eq_bind,
      Option.bind_eq_some_iff, Option.ite_none_right_eq_some, digits?_eq_some_iff,
      Option.some.injEq] at h
    obtain ⟨hne, _, ⟨hds, rfl⟩, hsize, rfl⟩ := h
    exact ⟨_, sign, _, hsign, hcs, hne, hds, hsize, rfl⟩
  · rintro ⟨negative, sign, ds, hsign, rfl, hne, hds, hsize, rfl⟩
    have hhead : ∀ c ∈ ds.head?, c ≠ '-' ∧ c ≠ '+' := fun c hc =>
      (plain_of_isDigit (hds c (List.mem_of_mem_head? hc))).1
    simp only [exponent?, hsign.splitSign_append hhead, hne, if_false,
      digits?_eq_some_iff.mpr ⟨hds, rfl⟩, Option.bind_eq_bind, Option.bind_some, hsize, if_true]

/-- What stands behind the digits is nothing, or a mark and an exponent. -/
theorem isExponent_iff {e : Int} : IsExponent e tail ↔
    (tail = [] ∧ e = 0) ∨
      ∃ mark text, tail = mark :: text ∧ isExponentMark mark = true ∧ exponent? text = some e := by
  have hmark : ∀ mark, isExponentMark mark = true ↔ mark ∈ ['e', 'E'] := by
    simp [isExponentMark]
  simp only [hmark, exponent?_eq_some_iff]
  constructor
  · intro h
    cases h with
    | absent => exact .inl ⟨rfl, rfl⟩
    | marked hm hsign hne hds hsize =>
      exact .inr ⟨_, _, rfl, hm, _, _, _, hsign, rfl, hne, hds, hsize, rfl⟩
  · rintro (⟨rfl, rfl⟩ |
      ⟨mark, text, rfl, hm, negative, sign, ds, hsign, rfl, hne, hds, hsize, rfl⟩)
    · exact .absent
    · exact .marked hm hsign hne hds hsize

/-! ## The digits -/

theorem isMantissa_split (mantissa : List Char) :
    IsMantissa (mantissa.takeWhile (· ≠ '.')) ((mantissa.dropWhile (· ≠ '.')).drop 1) mantissa := by
  have hwhole := List.takeWhile_append_dropWhile (p := (· ≠ '.')) (l := mantissa)
  cases hdrop : mantissa.dropWhile (· ≠ '.') with
  | nil =>
    rw [hdrop, List.append_nil] at hwhole
    rw [hwhole]
    exact .plain mantissa
  | cons c fraction =>
    have hpoint := List.head?_dropWhile_not (· ≠ '.') mantissa
    rw [hdrop] at hpoint hwhole
    have hc : c = '.' := by simpa using hpoint
    rw [hc] at hwhole ⊢
    have hpointed := IsMantissa.pointed (mantissa.takeWhile (· ≠ '.')) fraction
    rw [hwhole] at hpointed
    exact hpointed

/-- Digits are parted at the point that is among them. -/
theorem IsMantissa.split (h : IsMantissa whole fraction mantissa)
    (hwhole : ∀ c ∈ whole, c.isDigit = true) :
    mantissa.takeWhile (· ≠ '.') = whole ∧ (mantissa.dropWhile (· ≠ '.')).drop 1 = fraction := by
  have hplain : ∀ c ∈ whole, decide (c ≠ '.') = true :=
    fun c hc => (plain_of_isDigit (hwhole c hc)).2.2
  cases h with
  | plain =>
    rw [List.takeWhile_eq_self_iff.mpr hplain, List.dropWhile_eq_nil_iff.mpr hplain]
    exact ⟨rfl, rfl⟩
  | pointed =>
    obtain ⟨htake, hdrop⟩ := split_at_end hplain (show decide ('.' ≠ '.') = false from rfl) fraction
    rw [htake, hdrop]
    exact ⟨rfl, rfl⟩

/-- Among the digits and the point there is no sign and no exponent mark. -/
theorem IsMantissa.plain_of_mem (h : IsMantissa whole fraction mantissa)
    (hdigits : ∀ c ∈ whole ++ fraction, c.isDigit = true) {c : Char} (hc : c ∈ mantissa) :
    (c ≠ '-' ∧ c ≠ '+') ∧ (!isExponentMark c) = true := by
  have hcases : c = '.' ∨ c ∈ whole ++ fraction := by
    cases h with
    | plain => exact .inr (List.mem_append_left _ hc)
    | pointed =>
      rw [List.mem_append, List.mem_cons] at hc
      rcases hc with hc | hc | hc
      · exact .inr (List.mem_append_left _ hc)
      · exact .inl hc
      · exact .inr (List.mem_append_right _ hc)
  rcases hcases with rfl | hc
  · decide
  · exact ⟨(plain_of_isDigit (hdigits c hc)).1, (plain_of_isDigit (hdigits c hc)).2.1⟩

/-! ## The whole number -/

theorem isExponent_nil {e : Int} : IsExponent e [] ↔ e = 0 := by
  simp [isExponent_iff]

theorem isExponent_cons {mark : Char} (h : isExponentMark mark = true) {e : Int} :
    IsExponent e (mark :: ds) ↔ exponent? ds = some e := by
  simp only [isExponent_iff, reduceCtorEq, false_and, false_or]
  constructor
  · rintro ⟨mark', ds', heq, _, hds⟩
    obtain ⟨rfl, rfl⟩ := List.cons.inj heq
    exact hds
  · exact fun hds => ⟨mark, ds, rfl, h, hds⟩

/-- Reading in terms of the parts that it finds. -/
theorem parse?_eq_some_parts {d : Decimal} : parse? cs = some d ↔
    let number := (splitSign cs).2
    let mantissa := number.takeWhile (!isExponentMark ·)
    let whole := mantissa.takeWhile (· ≠ '.')
    let fraction := (mantissa.dropWhile (· ≠ '.')).drop 1
    ∃ e, IsExponent e (number.dropWhile (!isExponentMark ·)) ∧ whole ++ fraction ≠ [] ∧
      (∀ c ∈ whole ++ fraction, c.isDigit = true) ∧
      d = ⟨(splitSign cs).1, Nat.ofDigitChars 10 (whole ++ fraction) 0, fraction.length, e⟩ := by
  have hstop := List.head?_dropWhile_not (!isExponentMark ·) (splitSign cs).2
  unfold parse?
  simp only [Option.bind_eq_bind]
  split
  · rename_i hnil
    simp only [hnil, isExponent_nil, Option.bind_some, Option.ite_none_left_eq_some,
      Option.bind_eq_some_iff, digits?_eq_some_iff, Option.some.injEq]
    grind
  · rename_i mark text hcons
    rw [hcons] at hstop
    have hmark : isExponentMark mark = true := by simpa using hstop
    simp only [hcons, isExponent_cons hmark, Option.ite_none_left_eq_some,
      Option.bind_eq_some_iff, digits?_eq_some_iff, Option.some.injEq]
    grind

/-- A text is read as a number exactly if it is a numeral of that number. -/
theorem parse?_eq_some_iff {d : Decimal} : parse? cs = some d ↔ IsNumeral cs d := by
  rw [parse?_eq_some_parts]
  constructor
  · rintro ⟨e, he, hne, hdigits, rfl⟩
    obtain ⟨sign, hsign, hcs⟩ := exists_isSign_splitSign cs
    have hnumeral := IsNumeral.intro hsign (isMantissa_split _) hne hdigits he
    rw [List.takeWhile_append_dropWhile, ← hcs] at hnumeral
    exact hnumeral
  · intro h
    cases h with
    | @intro negative e sign whole fraction mantissa tail hsign hmantissa hne hdigits hexponent =>
      have hplain := fun c hc => hmantissa.plain_of_mem hdigits (c := c) hc
      have hmark : ∀ c ∈ tail.head?, (!isExponentMark c) = false := by
        intro c hc
        rcases isExponent_iff.mp hexponent with ⟨rfl, _⟩ | ⟨mark, text, rfl, hm, _⟩
        · cases hc
        · rw [← Option.some.inj hc, hm]
          rfl
      have hsome : mantissa ≠ [] := by
        cases hmantissa with
        | plain => simpa using hne
        | pointed => simp
      have hhead : ∀ c ∈ (mantissa ++ tail).head?, c ≠ '-' ∧ c ≠ '+' := by
        intro c hc
        rw [List.head?_append_of_ne_nil mantissa hsome] at hc
        exact (hplain c (List.mem_of_mem_head? hc)).1
      obtain ⟨htake, hdrop⟩ := split_at_stop (fun c hc => (hplain c hc).2) hmark
      obtain ⟨hwhole, hfraction⟩ :=
        hmantissa.split fun c hc => hdigits c (List.mem_append_left _ hc)
      simp only [hsign.splitSign_append hhead, htake, hdrop, hwhole, hfraction]
      exact ⟨e, hexponent, hne, hdigits, rfl⟩

end Munch.Decimal
