import Mathlib.Data.List.Basic
import Mathlib.Data.List.TakeWhile
import Munch.Decimal

/-!
# Digits with a point among them

A text of digits with one point is a number without sign and exponent, and its
digits read as one number are its unscaled value (`parse?_of_digits`). What
`Decimal.fixedPoint` writes is such a text, and reading it gives back the units
that were written (`exists_fixedPoint`); so rounding leaves a text alone that was
rounded to the same places before (`round?_fixedPoint`).
-/

namespace Munch

/-! ## Reading a class of characters -/

/-- Reading a class stops in front of what does not begin with it. -/
theorem split_at_stop {α : Type} {p : α → Bool} {v rest : List α} (hv : ∀ c ∈ v, p c = true)
    (hrest : ∀ c ∈ rest.head?, p c = false) :
    (v ++ rest).takeWhile p = v ∧ (v ++ rest).dropWhile p = rest := by
  have hstop : rest.takeWhile p = [] ∧ rest.dropWhile p = rest := by
    cases rest with
    | nil => exact ⟨rfl, rfl⟩
    | cons c rest =>
      have hc : ¬p c = true := by rw [hrest c rfl]; exact Bool.false_ne_true
      exact ⟨List.takeWhile_cons_of_neg hc, List.dropWhile_cons_of_neg hc⟩
  rw [List.takeWhile_append_of_pos hv, List.dropWhile_append_of_pos hv, hstop.1, hstop.2,
    List.append_nil]
  exact ⟨rfl, rfl⟩

/-- Reading a class stops at the first character that is not in it. -/
theorem split_at_end {p : Char → Bool} {v : List Char} {c : Char} (hv : ∀ d ∈ v, p d = true)
    (hc : p c = false) (rest : List Char) :
    (v ++ c :: rest).takeWhile p = v ∧ (v ++ c :: rest).dropWhile p = c :: rest :=
  split_at_stop hv fun d hd => by rw [← Option.some.inj hd, hc]

/-! ## Written numbers -/

/-- Only zero is written with a zero in front. -/
theorem head_toDigits_ne {n : Nat} (h : 0 < n) : '0' ∉ (Nat.toDigits 10 n).head? := by
  induction n using Nat.strongRecOn with
  | ind n ih =>
    by_cases hn : n < 10
    · have hall : ∀ n < 10, 0 < n → '0' ∉ [n.digitChar].head? := by decide
      rw [Nat.toDigits_of_lt_base hn]
      exact hall n hn h
    · -- the last digit stands behind those of the quotient
      rw [Nat.toDigits_of_base_le (by decide) (by omega),
        List.head?_append_of_ne_nil _ Nat.toDigits_ne_nil]
      exact ih (n / 10) (by omega) (by omega)

namespace Decimal

variable {whole fraction : List Char}

/-! ## Digits are plain -/

theorem splitSign_of_no_sign {cs : List Char} (h : ∀ c ∈ cs, c ≠ '-' ∧ c ≠ '+') :
    splitSign cs = (false, cs) := by
  unfold splitSign
  split
  · exact absurd rfl (h '-' List.mem_cons_self).1
  · exact absurd rfl (h '+' List.mem_cons_self).2
  · rfl

theorem ne_of_isDigit {c d : Char} (hc : c.isDigit = true) (hd : d.isDigit = false) : c ≠ d := by
  rintro rfl
  rw [hc] at hd
  cases hd

/-- A digit is no sign, no exponent mark and no point. -/
theorem plain_of_isDigit {c : Char} (h : c.isDigit = true) :
    (c ≠ '-' ∧ c ≠ '+') ∧ (!isExponentMark c) = true ∧ decide (c ≠ '.') = true := by
  refine ⟨⟨ne_of_isDigit h rfl, ne_of_isDigit h rfl⟩, ?_,
    decide_eq_true_iff.mpr (ne_of_isDigit h rfl)⟩
  have he : c ≠ 'e' := ne_of_isDigit h rfl
  have hE : c ≠ 'E' := ne_of_isDigit h rfl
  simp [isExponentMark, he, hE]

/-! ## Reading -/

/-- Digits with a point among them, and at least one behind it, are a number. -/
theorem parse?_of_digits (hwhole : ∀ c ∈ whole, c.isDigit = true) (hne : fraction ≠ [])
    (hfraction : ∀ c ∈ fraction, c.isDigit = true) :
    parse? (whole ++ '.' :: fraction) =
      some ⟨false, Nat.ofDigitChars 10 (whole ++ fraction) 0, fraction.length, 0⟩ := by
  have hplain : ∀ c ∈ whole ++ '.' :: fraction,
      (c ≠ '-' ∧ c ≠ '+') ∧ (!isExponentMark c) = true := by
    intro c hc
    rw [List.mem_append, List.mem_cons] at hc
    rcases hc with hc | rfl | hc
    · exact ⟨(plain_of_isDigit (hwhole c hc)).1, (plain_of_isDigit (hwhole c hc)).2.1⟩
    · decide
    · exact ⟨(plain_of_isDigit (hfraction c hc)).1, (plain_of_isDigit (hfraction c hc)).2.1⟩
  have hsign := splitSign_of_no_sign fun c hc => (hplain c hc).1
  have hmantissa := List.takeWhile_eq_self_iff.mpr fun c hc => (hplain c hc).2
  have hexponent := List.dropWhile_eq_nil_iff.mpr fun c hc => (hplain c hc).2
  obtain ⟨htake, hdrop⟩ := split_at_end (p := fun c => decide (c ≠ '.'))
    (fun c hc => (plain_of_isDigit (hwhole c hc)).2.2) (c := '.') (by decide) fraction
  have hall : (whole ++ fraction).all Char.isDigit = true := by
    rw [List.all_append, Bool.and_eq_true]
    exact ⟨List.all_eq_true.mpr hwhole, List.all_eq_true.mpr hfraction⟩
  have hne' : whole ++ fraction ≠ [] := fun hnil => hne (List.append_eq_nil_iff.mp hnil).2
  rw [parse?]
  simp only [hsign, hmantissa, hexponent, htake, hdrop, List.drop_one, List.tail_cons, hne',
    if_false, digits?, hall, if_true]
  rfl

/-- Such a number is rounded to a text without sign. -/
theorem exists_round?_of_digits (hwhole : ∀ c ∈ whole, c.isDigit = true) (hne : fraction ≠ [])
    (hfraction : ∀ c ∈ fraction, c.isDigit = true) (scale : Nat) :
    ∃ units, round? (whole ++ '.' :: fraction) scale = some (fixedPoint units scale) := by
  rw [round?, parse?_of_digits hwhole hne hfraction, Option.map_some, render,
    if_neg (fun h => Bool.false_ne_true h.1)]
  exact ⟨_, rfl⟩

/-! ## Writing -/

/-- Digits without needless zeros in front. -/
structure IsWhole (ds : List Char) : Prop where
  ne_nil : ds ≠ []
  digits : ∀ c ∈ ds, c.isDigit = true
  lead : ds = ['0'] ∨ '0' ∉ ds.head?

theorem isWhole_toDigits (n : Nat) : IsWhole (Nat.toDigits 10 n) where
  ne_nil := Nat.toDigits_ne_nil
  digits := fun _ hc => Nat.isDigit_of_mem_toDigits (by decide) (by decide) hc
  lead := by
    rcases Nat.eq_zero_or_pos n with rfl | hn
    · exact .inl rfl
    · exact .inr (head_toDigits_ne hn)

theorem lt_length_padded (digits : List Char) (scale : Nat) :
    scale < (padded digits scale).length := by
  unfold padded
  split
  · rw [List.length_append, List.length_replicate]
    omega
  · omega

theorem isDigit_of_mem_padded {digits : List Char} (h : ∀ c ∈ digits, c.isDigit = true)
    (scale : Nat) : ∀ c ∈ padded digits scale, c.isDigit = true := by
  unfold padded
  split
  · intro c hc
    rcases List.mem_append.mp hc with hc | hc
    · rw [(List.mem_replicate.mp hc).2]
      rfl
    · exact h c hc
  · exact h

/-- Zeros in front do not count. -/
theorem ofDigitChars_padded (digits : List Char) (scale : Nat) :
    Nat.ofDigitChars 10 (padded digits scale) 0 = Nat.ofDigitChars 10 digits 0 := by
  unfold padded
  split
  · rw [Nat.ofDigitChars_append, Nat.ofDigitChars_replicate_zero, Nat.mul_zero]
  · rfl

/-- Before the last `scale` digits stands a single zero, or the front of a number that
is not zero. -/
theorem isWhole_take_padded (units : Nat) {scale : Nat} (hscale : 0 < scale) :
    IsWhole ((padded (Nat.toDigits 10 units) scale).take
      ((padded (Nat.toDigits 10 units) scale).length - scale)) := by
  have hlength := lt_length_padded (Nat.toDigits 10 units) scale
  have hdigits := isDigit_of_mem_padded (isWhole_toDigits units).digits scale
  refine ⟨?_, fun c hc => hdigits c (List.mem_of_mem_take hc), ?_⟩
  · apply List.ne_nil_of_length_pos
    rw [List.length_take]
    omega
  · unfold padded
    split
    · -- the zeros fill up to one digit more than the places
      rename_i hle
      left
      have hplace : (List.replicate (scale + 1 - (Nat.toDigits 10 units).length) '0' ++
          Nat.toDigits 10 units).length - scale = 1 := by
        rw [List.length_append, List.length_replicate]
        omega
      rw [hplace, Nat.succ_sub hle, List.replicate_succ]
      rfl
    · rename_i hgt
      have hpos : 0 < units := by
        rcases Nat.eq_zero_or_pos units with rfl | hpos
        · exact absurd hscale hgt
        · exact hpos
      right
      rw [List.head?_take, if_neg (by omega)]
      exact head_toDigits_ne hpos

/-- What is written with a point is digits, a point and as many digits as places,
and all digits read as one number are the units. -/
theorem exists_fixedPoint (units : Nat) {scale : Nat} (hscale : 0 < scale) :
    ∃ whole fraction, fixedPoint units scale = whole ++ '.' :: fraction ∧ IsWhole whole ∧
      (fraction.length = scale ∧ ∀ c ∈ fraction, c.isDigit = true) ∧
      Nat.ofDigitChars 10 (whole ++ fraction) 0 = units := by
  have hlength := lt_length_padded (Nat.toDigits 10 units) scale
  have hdigits := isDigit_of_mem_padded (isWhole_toDigits units).digits scale
  refine ⟨_, _, if_neg (Nat.ne_of_gt hscale), isWhole_take_padded units hscale, ⟨?_, ?_⟩, ?_⟩
  · rw [List.length_drop]
    omega
  · exact fun c hc => hdigits c (List.mem_of_mem_drop hc)
  · rw [List.take_append_drop, ofDigitChars_padded, Nat.ofDigitChars_ten_toDigits]

/-- Rounding to the same places again changes nothing. -/
theorem round?_fixedPoint (units : Nat) {scale : Nat} (hscale : 0 < scale) :
    round? (fixedPoint units scale) scale = some (fixedPoint units scale) := by
  obtain ⟨whole, fraction, heq, hwhole, ⟨hlength, hfraction⟩, hvalue⟩ :=
    exists_fixedPoint units hscale
  have hne : fraction ≠ [] := by
    rintro rfl
    rw [← hlength] at hscale
    exact absurd hscale (Nat.lt_irrefl 0)
  have hparse : parse? (fixedPoint units scale) = some ⟨false, units, scale, 0⟩ := by
    rw [heq, parse?_of_digits hwhole.digits hne hfraction, hvalue, hlength]
  have hunits : (⟨false, units, scale, 0⟩ : Decimal).units scale = units := by
    simp [Decimal.units]
  rw [round?, hparse, Option.map_some, render, hunits, if_neg (fun h => Bool.false_ne_true h.1)]

end Decimal

end Munch
