import Mathlib.Algebra.Order.Field.Power
import Mathlib.Data.Rat.Floor
import Mathlib.Tactic.FieldSimp
import Mathlib.Tactic.Positivity
import Mathlib.Tactic.Ring
import Mathlib.Tactic.Linarith
import Munch.Proofs.Decimal.Numeral

/-!
# Rounding to a number of places

The value of a number is a rational, and `roundHalfUp` rounds rationals. A
`FixedNumeral` is a number written with a given number of places and without
needless zeros in front. For each rational there is exactly one that it is rounded
to (`FixedNumeral.Rounds.text_eq`), and rounding a text finds it
(`round?_eq_some_iff`).
-/

namespace Munch.Decimal

variable {cs ds ds' : List Char} {scale : Nat} {v : ℚ}

/-! ## Values -/

/-- The rational that is written. -/
def value (d : Decimal) : ℚ :=
  (if d.negative then -1 else 1) * d.unscaled * 10 ^ (d.exponent - d.places)

/-- The size of a rational in units of `10 ^ -scale`, a half rounded up. -/
def halfUp (v : ℚ) (scale : Nat) : ℤ :=
  ⌊|v| * 10 ^ scale + 1 / 2⌋

/-- A rational rounded to `scale` places, a half away from zero. -/
def roundHalfUp (v : ℚ) (scale : Nat) : ℚ :=
  (if v < 0 then -1 else 1) * halfUp v scale / 10 ^ scale

/-- Rounding up when twice the remainder reaches the divisor is one division with half of
the divisor added. -/
theorem ite_le_twice_mod (n : Nat) {m : Nat} (hm : 0 < m) :
    (if m ≤ n % m * 2 then n / m + 1 else n / m) = (2 * n + m) / (2 * m) := by
  have hmod : n % m < m := Nat.mod_lt n hm
  have hsplit : 2 * n + m = 2 * m * (n / m) + (2 * (n % m) + m) := by
    have hn := Nat.div_add_mod n m
    rw [Nat.mul_assoc]
    omega
  rw [hsplit, Nat.mul_add_div (by omega)]
  split
  · have hcarry : (2 * (n % m) + m) / (2 * m) = 1 := Nat.div_eq_of_lt_le (by omega) (by omega)
    rw [hcarry]
  · have hnone : (2 * (n % m) + m) / (2 * m) = 0 := Nat.div_eq_of_lt (by omega)
    rw [hnone, Nat.add_zero]

/-- Half up by quotient and remainder of whole numbers. -/
theorem floor_div_add_half (n : Nat) {m : Nat} (hm : 0 < m) :
    ⌊(n : ℚ) / m + 1 / 2⌋ = (if m ≤ n % m * 2 then n / m + 1 else n / m : Nat) := by
  rw [ite_le_twice_mod n hm]
  have hsum : (n : ℚ) / m + 1 / 2 = ((2 * n + m : Nat) : ℚ) / (2 * m : Nat) := by
    have hne : (m : ℚ) ≠ 0 := by positivity
    push_cast
    field_simp
  rw [hsum]
  exact Rat.floor_natCast_div_natCast _ _

theorem abs_value (d : Decimal) : |d.value| = d.unscaled * 10 ^ (d.exponent - d.places) := by
  have hpos : (0 : ℚ) ≤ d.unscaled * 10 ^ (d.exponent - d.places) := by positivity
  unfold value
  split
  · rw [neg_one_mul, neg_mul, abs_neg, abs_of_nonneg hpos]
  · rw [one_mul, abs_of_nonneg hpos]

/-- The units that are written are those of the value. -/
theorem halfUp_value (d : Decimal) (scale : Nat) : halfUp d.value scale = d.units scale := by
  have hten : (10 : ℚ) ≠ 0 := by norm_num
  have hsize : |d.value| * 10 ^ scale =
      d.unscaled * 10 ^ (-((d.places : ℤ) - d.exponent - scale)) := by
    rw [abs_value, mul_assoc, ← zpow_natCast, ← zpow_add₀ hten]
    congr 2
    ring
  rw [halfUp, hsize, units]
  simp only
  generalize (d.places : ℤ) - d.exponent - scale = shift
  split
  · -- a whole number of units, to which nothing is carried
    rename_i hshift
    obtain ⟨k, hk⟩ := Int.eq_ofNat_of_zero_le (show 0 ≤ -shift by omega)
    rw [hk, Int.toNat_natCast, zpow_natCast]
    have hwhole : (d.unscaled : ℚ) * 10 ^ k = ((d.unscaled * 10 ^ k : Nat) : ℤ) := by push_cast; rfl
    rw [hwhole, Int.floor_intCast_add]
    norm_num
  · rename_i hshift
    obtain ⟨k, rfl⟩ := Int.eq_ofNat_of_zero_le (show 0 ≤ shift by omega)
    have hquot : (d.unscaled : ℚ) * 10 ^ (-(k : ℤ)) = (d.unscaled : ℚ) / (10 ^ k : Nat) := by
      rw [zpow_neg, zpow_natCast, div_eq_mul_inv]
      push_cast
      rfl
    rw [hquot, floor_div_add_half _ (by positivity), Int.toNat_natCast]
    rfl

/-! ## Digits and their number -/

theorem ofDigitChars_cons_zero (c : Char) (ds : List Char) :
    Nat.ofDigitChars 10 (c :: ds) 0 =
      10 ^ ds.length * (c.toNat - 48) + Nat.ofDigitChars 10 ds 0 := by
  rw [Nat.ofDigitChars_cons, Nat.ofDigitChars_eq_ofDigitChars_zero]
  simp

theorem ofDigitChars_lt (h : ∀ c ∈ ds, c.isDigit = true) :
    Nat.ofDigitChars 10 ds 0 < 10 ^ ds.length := by
  induction ds with
  | nil => simp
  | cons c ds ih =>
    rw [List.forall_mem_cons] at h
    have hc : 48 ≤ c.toNat ∧ c.toNat ≤ 57 := Char.isDigit_iff_toNat.mp h.1
    have hds := ih h.2
    rw [ofDigitChars_cons_zero, List.length_cons, pow_succ]
    have hdigit : 10 ^ ds.length * (c.toNat - 48) ≤ 10 ^ ds.length * 9 :=
      Nat.mul_le_mul_left _ (by omega)
    omega

/-- Quotient and remainder are determined by the number. -/
theorem eq_of_mul_add_eq {k a a' b b' : Nat} (hb : b < k) (hb' : b' < k)
    (h : k * a + b = k * a' + b') : a = a' ∧ b = b' := by
  have hk : 0 < k := Nat.lt_of_le_of_lt (Nat.zero_le b) hb
  have hquot := congrArg (· / k) h
  have hrem := congrArg (· % k) h
  simp only [Nat.mul_add_div hk, Nat.div_eq_of_lt hb, Nat.div_eq_of_lt hb', Nat.add_zero] at hquot
  simp only [Nat.mul_add_mod, Nat.mod_eq_of_lt hb, Nat.mod_eq_of_lt hb'] at hrem
  exact ⟨hquot, hrem⟩

/-- Digits of equal number are equal, if there are as many of them. -/
theorem digits_unique (h : ∀ c ∈ ds, c.isDigit = true) (h' : ∀ c ∈ ds', c.isDigit = true)
    (hlength : ds.length = ds'.length)
    (hvalue : Nat.ofDigitChars 10 ds 0 = Nat.ofDigitChars 10 ds' 0) : ds = ds' := by
  induction ds generalizing ds' with
  | nil => exact (List.length_eq_zero_iff.mp hlength.symm).symm
  | cons c ds ih =>
    cases ds' with
    | nil => cases hlength
    | cons c' ds' =>
      rw [List.forall_mem_cons] at h h'
      have hlength' : ds.length = ds'.length := Nat.succ.inj hlength
      rw [ofDigitChars_cons_zero, ofDigitChars_cons_zero, ← hlength'] at hvalue
      have hlt := ofDigitChars_lt h.2
      have hlt' := ofDigitChars_lt h'.2
      rw [← hlength'] at hlt'
      -- the first digit is the quotient, and the others are the remainder
      obtain ⟨hquot, hrem⟩ := eq_of_mul_add_eq hlt hlt' hvalue
      have hc : 48 ≤ c.toNat ∧ c.toNat ≤ 57 := Char.isDigit_iff_toNat.mp h.1
      have hc' : 48 ≤ c'.toNat ∧ c'.toNat ≤ 57 := Char.isDigit_iff_toNat.mp h'.1
      rw [ih h.2 h'.2 hlength' hrem, Char.toNat_inj.mp (show c.toNat = c'.toNat by omega)]

/-- The first digit alone is worth a power of ten, unless it is a zero. -/
theorem pow_le_ofDigitChars {c : Char} (h : c.isDigit = true) (hc : c ≠ '0') (ds : List Char) :
    10 ^ ds.length ≤ Nat.ofDigitChars 10 (c :: ds) 0 := by
  have hdigit : 48 ≤ c.toNat ∧ c.toNat ≤ 57 := Char.isDigit_iff_toNat.mp h
  have hzero : c.toNat ≠ 48 := fun h0 => hc (Char.toNat_inj.mp h0)
  rw [ofDigitChars_cons_zero]
  calc 10 ^ ds.length = 10 ^ ds.length * 1 := (Nat.mul_one _).symm
    _ ≤ 10 ^ ds.length * (c.toNat - 48) := Nat.mul_le_mul_left _ (by omega)
    _ ≤ _ := Nat.le_add_right _ _

theorem IsWhole.length_le (h : IsWhole ds) (h' : IsWhole ds')
    (hvalue : Nat.ofDigitChars 10 ds 0 = Nat.ofDigitChars 10 ds' 0) :
    ds.length ≤ ds'.length := by
  have hpos' := List.length_pos_iff.mpr h'.ne_nil
  rcases h.lead with rfl | hlead
  · exact hpos'
  · cases ds with
    | nil => exact Nat.zero_le _
    | cons c ds =>
      have hc : c ≠ '0' := fun h0 => hlead (by rw [h0]; rfl)
      have hle := pow_le_ofDigitChars (h.digits c List.mem_cons_self) hc ds
      have hlt := ofDigitChars_lt h'.digits
      rw [hvalue] at hle
      exact (Nat.pow_lt_pow_iff_right (by decide)).mp (Nat.lt_of_le_of_lt hle hlt)

/-- Without needless zeros a number has one written form. -/
theorem IsWhole.unique (h : IsWhole ds) (h' : IsWhole ds')
    (hvalue : Nat.ofDigitChars 10 ds 0 = Nat.ofDigitChars 10 ds' 0) : ds = ds' :=
  digits_unique h.digits h'.digits
    (Nat.le_antisymm (h.length_le h' hvalue) (h'.length_le h hvalue.symm)) hvalue

/-! ## Numbers with fixed places -/

/-- A number written with exactly `scale` places. -/
structure FixedNumeral (scale : Nat) where
  negative : Bool
  whole : List Char
  fraction : List Char
  isWhole : IsWhole whole
  digits : ∀ c ∈ fraction, c.isDigit = true
  length_fraction : fraction.length = scale

namespace FixedNumeral

variable {f g : FixedNumeral scale}

/-- The text: a point divides the places, if there are any. -/
def text (f : FixedNumeral scale) : List Char :=
  (if f.negative then ['-'] else []) ++
    (f.whole ++ if scale = 0 then [] else '.' :: f.fraction)

/-- All digits as one number. -/
def units (f : FixedNumeral scale) : Nat :=
  Nat.ofDigitChars 10 (f.whole ++ f.fraction) 0

/-- The rational that is written. -/
def value (f : FixedNumeral scale) : ℚ :=
  (if f.negative then -1 else 1) * f.units / 10 ^ scale

/-- The numeral is what `v` is rounded to. Zero has no sign. -/
structure Rounds (f : FixedNumeral scale) (v : ℚ) : Prop where
  value_eq : f.value = roundHalfUp v scale
  negative_iff : f.negative = true ↔ v < 0 ∧ roundHalfUp v scale ≠ 0

theorem units_eq (f : FixedNumeral scale) : f.units =
    10 ^ scale * Nat.ofDigitChars 10 f.whole 0 + Nat.ofDigitChars 10 f.fraction 0 := by
  rw [units, Nat.ofDigitChars_append, Nat.ofDigitChars_eq_ofDigitChars_zero, f.length_fraction]

/-- The sign and the units decide how a number is written. -/
theorem text_unique (hsign : f.negative = g.negative) (hunits : f.units = g.units) :
    f.text = g.text := by
  have hlt := ofDigitChars_lt f.digits
  have hlt' := ofDigitChars_lt g.digits
  rw [f.length_fraction] at hlt
  rw [g.length_fraction] at hlt'
  rw [units_eq, units_eq] at hunits
  obtain ⟨hquot, hrem⟩ := eq_of_mul_add_eq hlt hlt' hunits
  have hwhole := f.isWhole.unique g.isWhole hquot
  have hfraction := digits_unique f.digits g.digits
    (f.length_fraction.trans g.length_fraction.symm) hrem
  rw [text, text, hsign, hwhole, hfraction]

/-- The numeral of a sign and a number of units. -/
theorem exists_text_eq (negative : Bool) (units scale : Nat) :
    ∃ f : FixedNumeral scale, f.negative = negative ∧ f.units = units ∧
      f.text = (if negative then ['-'] else []) ++ fixedPoint units scale := by
  cases scale with
  | zero =>
    refine ⟨⟨negative, Nat.toDigits 10 units, [], isWhole_toDigits units, by simp, rfl⟩, rfl,
      ?_, ?_⟩
    · simp [FixedNumeral.units]
    · simp [text, fixedPoint]
  | succ scale =>
    obtain ⟨whole, fraction, heq, hwhole, ⟨hlength, hdigits⟩, hunits⟩ :=
      exists_fixedPoint units (Nat.succ_pos scale)
    refine ⟨⟨negative, whole, fraction, hwhole, hdigits, hlength⟩, rfl, hunits, ?_⟩
    simp [text, heq]

/-- A numeral with fixed places is a number, with the same value. -/
theorem isNumeral_text (f : FixedNumeral scale) :
    IsNumeral f.text ⟨f.negative, f.units, scale, 0⟩ := by
  have hsign : IsSign f.negative (if f.negative then ['-'] else []) := by
    cases f.negative with
    | false => exact .absent
    | true => exact .minus
  have hdigits : ∀ c ∈ f.whole ++ f.fraction, c.isDigit = true := by
    intro c hc
    rcases List.mem_append.mp hc with hc | hc
    · exact f.isWhole.digits c hc
    · exact f.digits c hc
  have hne : f.whole ++ f.fraction ≠ [] := by simp [f.isWhole.ne_nil]
  have hmantissa : IsMantissa f.whole f.fraction
      (f.whole ++ if scale = 0 then [] else '.' :: f.fraction) := by
    split
    · rename_i hscale
      have hnil : f.fraction = [] := List.length_eq_zero_iff.mp (by rw [f.length_fraction, hscale])
      rw [hnil, List.append_nil]
      exact .plain f.whole
    · exact .pointed f.whole f.fraction
  have hnumeral := IsNumeral.intro hsign hmantissa hne hdigits .absent
  rw [List.append_nil, f.length_fraction] at hnumeral
  exact hnumeral

theorem value_eq_value (f : FixedNumeral scale) :
    f.value = Decimal.value ⟨f.negative, f.units, scale, 0⟩ := by
  simp [value, Decimal.value, div_eq_mul_inv]

/-! ## What a rational is rounded to -/

/-- There is only one text that a rational is rounded to. -/
theorem Rounds.text_eq (hf : f.Rounds v) (hg : g.Rounds v) : f.text = g.text := by
  have hsign : f.negative = g.negative := by
    rw [Bool.eq_iff_iff, hf.negative_iff, hg.negative_iff]
  have hvalue : f.value = g.value := hf.value_eq.trans hg.value_eq.symm
  have hunits : (f.units : ℚ) = g.units := by
    have hpow : (10 : ℚ) ^ scale ≠ 0 := by positivity
    rw [value, value, hsign, div_left_inj' hpow] at hvalue
    cases hneg : g.negative with
    | false => simpa [hneg] using hvalue
    | true => simpa [hneg] using hvalue
  exact text_unique hsign (Nat.cast_injective hunits)

/-- A rounded number is rounded to itself. -/
theorem Rounds.refl (h : f.Rounds v) : f.Rounds f.value := by
  have hunits : halfUp f.value scale = f.units := by
    rw [value_eq_value, halfUp_value]
    simp [Decimal.units]
  have hneg : f.negative = true ↔ f.value < 0 := by
    constructor
    · intro hn
      have hne : f.value ≠ 0 := by
        rw [h.value_eq]
        exact (h.negative_iff.mp hn).2
      have hle : f.value ≤ 0 := by
        rw [value, if_pos hn]
        have : (0 : ℚ) ≤ f.units / 10 ^ scale := by positivity
        rw [mul_div_assoc]
        linarith
      exact lt_of_le_of_ne hle hne
    · intro hlt
      by_contra hn
      rw [value, if_neg hn, one_mul] at hlt
      have : (0 : ℚ) ≤ f.units / 10 ^ scale := by positivity
      linarith
  have hvalue : f.value = roundHalfUp f.value scale := by
    have hsign : (if f.negative then (-1 : ℚ) else 1) = if f.value < 0 then -1 else 1 := by
      simp only [hneg]
    rw [roundHalfUp, hunits, ← hsign]
    rfl
  refine ⟨hvalue, ?_⟩
  rw [← hvalue, hneg]
  exact ⟨fun hlt => ⟨hlt, ne_of_lt hlt⟩, fun hlt => hlt.1⟩

end FixedNumeral

/-! ## Rounding a text -/

theorem units_of_unscaled_eq_zero {d : Decimal} (h : d.unscaled = 0) (scale : Nat) :
    d.units scale = 0 := by
  have hhalf : halfUp d.value scale = 0 := by
    have hzero : d.value = 0 := by simp [value, h]
    rw [halfUp, hzero]
    norm_num
  rw [halfUp_value] at hhalf
  exact_mod_cast hhalf

theorem roundHalfUp_value (d : Decimal) (scale : Nat) : roundHalfUp d.value scale =
    (if d.value < 0 then -1 else 1) * (d.units scale : ℚ) / 10 ^ scale := by
  rw [roundHalfUp, halfUp_value, Int.cast_natCast]

theorem roundHalfUp_value_ne_zero_iff {d : Decimal} {scale : Nat} :
    roundHalfUp d.value scale ≠ 0 ↔ d.units scale ≠ 0 := by
  rw [roundHalfUp_value]
  split <;> simp

theorem value_neg_iff (d : Decimal) : d.value < 0 ↔ d.negative = true ∧ d.unscaled ≠ 0 := by
  have hpow : (0 : ℚ) < 10 ^ (d.exponent - d.places) := by positivity
  cases hneg : d.negative with
  | false =>
    have hnonneg : 0 ≤ d.value := by
      rw [value, hneg, if_neg Bool.false_ne_true]
      positivity
    simp [not_lt.mpr hnonneg]
  | true =>
    simp [value, hneg, hpow, Nat.pos_iff_ne_zero]

/-- What is rendered is what the value is rounded to. -/
theorem exists_rounds_render (d : Decimal) (scale : Nat) :
    ∃ f : FixedNumeral scale, f.Rounds d.value ∧ f.text = d.render scale := by
  obtain ⟨f, hsign, hunits, htext⟩ := FixedNumeral.exists_text_eq
    (decide (d.negative = true ∧ d.units scale ≠ 0)) (d.units scale) scale
  have hneg : f.negative = true ↔ d.value < 0 ∧ d.units scale ≠ 0 := by
    rw [hsign, decide_eq_true_iff, value_neg_iff]
    constructor
    · exact fun h => ⟨⟨h.1, fun h0 => h.2 (units_of_unscaled_eq_zero h0 scale)⟩, h.2⟩
    · exact fun h => ⟨h.1.1, h.2⟩
  refine ⟨f, ⟨?_, by rw [hneg, roundHalfUp_value_ne_zero_iff]⟩, ?_⟩
  · rw [FixedNumeral.value, hunits, roundHalfUp_value]
    -- the signs agree, unless nothing is left to have one
    by_cases hzero : d.units scale = 0
    · simp [hzero]
    · simp [hneg, hzero]
  · rw [htext, render]
    simp only [decide_eq_true_iff]
    split <;> rfl

theorem round?_eq_some_iff {out : List Char} : round? cs scale = some out ↔
    ∃ d, IsNumeral cs d ∧ ∃ f : FixedNumeral scale, f.Rounds d.value ∧ f.text = out := by
  simp only [round?, Option.map_eq_some_iff, parse?_eq_some_iff]
  constructor
  · rintro ⟨d, hd, rfl⟩
    exact ⟨d, hd, exists_rounds_render d scale⟩
  · rintro ⟨d, hd, f, hf, rfl⟩
    obtain ⟨g, hg, htext⟩ := exists_rounds_render d scale
    exact ⟨d, hd, by rw [← htext, hg.text_eq hf]⟩

/-- Rounding gives the canonical text of the rounded value: the text is a numeral of
one number, and what it is rounded to is the only numeral with these places whose
value is that of the number, half up. So texts of equal value are rounded to the
same text, and a rounded text is rounded to itself. -/
theorem round?_canonical {cs out : List Char} {scale : Nat} (h : round? cs scale = some out) :
    ∃ d, (∀ e, IsNumeral cs e ↔ e = d) ∧
      (∀ text, (∃ f : FixedNumeral scale, f.Rounds d.value ∧ f.text = text) ↔ text = out) ∧
      (∀ cs' e, IsNumeral cs' e → e.value = d.value → round? cs' scale = some out) ∧
      round? out scale = some out := by
  obtain ⟨d, hd, f, hf, rfl⟩ := round?_eq_some_iff.mp h
  refine ⟨d, fun e => ?_, fun text => ?_, fun cs' e he hvalue => ?_, ?_⟩
  · rw [← parse?_eq_some_iff] at hd ⊢
    rw [hd, Option.some.injEq, eq_comm]
  · constructor
    · rintro ⟨g, hg, rfl⟩
      exact hg.text_eq hf
    · rintro rfl
      exact ⟨f, hf, rfl⟩
  · rw [← hvalue] at hf
    exact round?_eq_some_iff.mpr ⟨e, he, f, hf, rfl⟩
  · refine round?_eq_some_iff.mpr ⟨_, f.isNumeral_text, f, ?_, rfl⟩
    rw [← f.value_eq_value]
    exact hf.refl

/-- A tie is rounded away from zero and carries into a new digit, and the exponent
is taken into account. -/
theorem round?_canonical_carried : round? "-0999.95e-1".toList 2 = some "-100.00".toList ∧
    round? "-100.00".toList 2 = some "-100.00".toList := by
  have h : round? "-0999.95e-1".toList 2 = some "-100.00".toList := by decide +kernel
  obtain ⟨_, _, _, _, hagain⟩ := round?_canonical h
  exact ⟨h, hagain⟩

end Munch.Decimal
