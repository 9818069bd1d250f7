import Mathlib.Computability.Language
import Munch.Proofs.Decimal.Numeral

/-!
# The language of numbers

`numerals` is the language of all texts that are numbers, as a product of three: an
optional sign, digits with at most one point anywhere among them, and optionally an
exponent. The point is counted here and not looked for, so nothing is said about where
the digits are parted. `round?_accepts_numerals` says that exactly these texts are
rounded.
-/

namespace Munch.Decimal

variable {cs ds m sign tail whole fraction : List Char}

/-- An optional sign. -/
def signs : Language Char :=
  {[], ['+'], ['-']}

/-- Digits with at most one point anywhere among them, and at least one digit. -/
def mantissas : Language Char :=
  {m | (∀ c ∈ m, c.isDigit = true ∨ c = '.') ∧ m.count '.' ≤ 1 ∧ ∃ c ∈ m, c.isDigit = true}

/-- One or more digits that are written for a number up to 1000. -/
def exponentSizes : Language Char :=
  {ds | ds ≠ [] ∧ (∀ c ∈ ds, c.isDigit = true) ∧ Nat.ofDigitChars 10 ds 0 ≤ 1000}

/-- An optional exponent. -/
def exponents : Language Char :=
  1 + {['e'], ['E']} * signs * exponentSizes

/-- The texts that are numbers. -/
def numerals : Language Char :=
  signs * mantissas * exponents

/-! ## The parts of a text -/

theorem mem_signs : sign ∈ signs ↔ ∃ negative, IsSign negative sign := by
  constructor
  · rintro (rfl | rfl | rfl)
    · exact ⟨false, .absent⟩
    · exact ⟨false, .plus⟩
    · exact ⟨true, .minus⟩
  · rintro ⟨_, _ | _ | _⟩
    · exact .inl rfl
    · exact .inr (.inl rfl)
    · exact .inr (.inr rfl)

theorem mem_exponents : tail ∈ exponents ↔ ∃ e, IsExponent e tail := by
  rw [exponents, Language.mem_add, Language.mem_one]
  constructor
  · rintro (rfl | ⟨_, ⟨_, hmark, sign, hsign, rfl⟩, ds, ⟨hne, hds, hsize⟩, rfl⟩)
    · exact ⟨0, .absent⟩
    · obtain ⟨negative, hsign⟩ := mem_signs.mp hsign
      have hmarked : ∀ mark ∈ ['e', 'E'], ∃ e, IsExponent e (mark :: (sign ++ ds)) :=
        fun mark hmark => ⟨_, .marked hmark hsign hne hds hsize⟩
      rcases hmark with rfl | rfl
      · exact hmarked 'e' (by decide)
      · exact hmarked 'E' (by decide)
  · rintro ⟨e, h⟩
    cases h with
    | absent => exact .inl rfl
    | @marked mark negative sign ds hmark hsign hne hds hsize =>
      have hmark' : [mark] ∈ ({['e'], ['E']} : Language Char) := by
        rcases List.mem_pair.mp hmark with rfl | rfl
        · exact .inl rfl
        · exact .inr rfl
      have hfront := Language.append_mem_mul hmark' (mem_signs.mpr ⟨negative, hsign⟩)
      exact .inr (Language.append_mem_mul hfront ⟨hne, hds, hsize⟩)

theorem count_point_eq_zero (h : ∀ c ∈ ds, c.isDigit = true) : ds.count '.' = 0 :=
  List.count_eq_zero.mpr fun hmem => absurd (h '.' hmem) (by decide)

theorem IsMantissa.mem_mantissas (h : IsMantissa whole fraction m) (hne : whole ++ fraction ≠ [])
    (hdigits : ∀ c ∈ whole ++ fraction, c.isDigit = true) : m ∈ mantissas := by
  obtain ⟨c, hc⟩ := List.exists_mem_of_ne_nil _ hne
  cases h with
  | plain =>
    rw [List.append_nil] at hdigits hc
    refine ⟨fun c hc => .inl (hdigits c hc), ?_, c, hc, hdigits c hc⟩
    rw [count_point_eq_zero hdigits]
    exact Nat.zero_le 1
  | pointed =>
    obtain ⟨hwhole, hfraction⟩ := List.forall_mem_append.mp hdigits
    refine ⟨?_, ?_, c, ?_, hdigits c hc⟩
    · intro c hc
      rw [List.mem_append, List.mem_cons] at hc
      rcases hc with hc | rfl | hc
      · exact .inl (hwhole c hc)
      · exact .inr rfl
      · exact .inl (hfraction c hc)
    · rw [List.count_append, List.count_cons_self, count_point_eq_zero hwhole,
        count_point_eq_zero hfraction]
    · rw [List.mem_append] at hc
      rw [List.mem_append, List.mem_cons]
      exact hc.imp_right .inr

/-- The one point, if there is one, parts the digits. -/
theorem exists_isMantissa (h : m ∈ mantissas) : ∃ whole fraction, IsMantissa whole fraction m ∧
    whole ++ fraction ≠ [] ∧ ∀ c ∈ whole ++ fraction, c.isDigit = true := by
  obtain ⟨hchars, hpoint, c, hc, hdigit⟩ := h
  have hdigits : ∀ c ∈ m, c ≠ '.' → c.isDigit = true :=
    fun c hc hne => (hchars c hc).resolve_right hne
  by_cases hmem : '.' ∈ m
  · obtain ⟨whole, fraction, rfl⟩ := List.append_of_mem hmem
    rw [List.count_append, List.count_cons_self] at hpoint
    have hwhole : '.' ∉ whole := List.count_eq_zero.mp (by omega)
    have hfraction : '.' ∉ fraction := List.count_eq_zero.mp (by omega)
    have hc' : c ∈ whole ++ fraction := by
      rw [List.mem_append, List.mem_cons] at hc
      rw [List.mem_append]
      exact hc.imp_right fun hc => hc.resolve_left (ne_of_isDigit hdigit rfl)
    refine ⟨whole, fraction, .pointed whole fraction, List.ne_nil_of_mem hc', ?_⟩
    rw [List.forall_mem_append]
    constructor
    · intro c hc
      exact hdigits c (List.mem_append_left _ hc) fun heq => hwhole (heq ▸ hc)
    · intro c hc
      exact hdigits c (List.mem_append_right _ (List.mem_cons_of_mem _ hc))
        fun heq => hfraction (heq ▸ hc)
  · refine ⟨m, [], .plain m, ?_, ?_⟩
    · exact List.ne_nil_of_mem (List.mem_append_left [] hc)
    · intro c hc
      rw [List.append_nil] at hc
      exact hdigits c hc fun heq => hmem (heq ▸ hc)

/-! ## The whole text -/

/-- The texts of the language are those that are written for some number. -/
theorem mem_numerals_iff : cs ∈ numerals ↔ ∃ d, IsNumeral cs d := by
  constructor
  · rintro ⟨_, ⟨sign, hsign, m, hm, rfl⟩, tail, htail, rfl⟩
    obtain ⟨negative, hsign⟩ := mem_signs.mp hsign
    obtain ⟨whole, fraction, hm, hne, hdigits⟩ := exists_isMantissa hm
    obtain ⟨e, htail⟩ := mem_exponents.mp htail
    simp only [List.append_assoc]
    exact ⟨_, .intro hsign hm hne hdigits htail⟩
  · rintro ⟨d, h⟩
    cases h with
    | @intro negative e sign whole fraction m tail hsign hm hne hdigits htail =>
      have hfront := Language.append_mem_mul (mem_signs.mpr ⟨negative, hsign⟩)
        (hm.mem_mantissas hne hdigits)
      rw [← List.append_assoc]
      exact Language.append_mem_mul hfront (mem_exponents.mpr ⟨e, htail⟩)

theorem isSome_round?_iff (scale : Nat) : (round? cs scale).isSome = true ↔ cs ∈ numerals := by
  simp only [round?, Option.isSome_map, Option.isSome_iff_exists, parse?_eq_some_iff,
    mem_numerals_iff]

theorem nil_not_mem_numerals : [] ∉ numerals := by
  rw [← isSome_round?_iff 0]
  decide

theorem ascii_of_isDigit {c : Char} (h : c.isDigit = true) : c.toNat < 128 := by
  have hc : 48 ≤ c.toNat ∧ c.toNat ≤ 57 := Char.isDigit_iff_toNat.mp h
  omega

theorem ascii_of_mem_signs (h : sign ∈ signs) : ∀ c ∈ sign, c.toNat < 128 := by
  rcases h with rfl | rfl | rfl
  · exact fun c hc => absurd hc List.not_mem_nil
  · exact List.forall_mem_singleton.mpr (by decide)
  · exact List.forall_mem_singleton.mpr (by decide)

theorem ascii_of_mem_mantissas (h : m ∈ mantissas) : ∀ c ∈ m, c.toNat < 128 := by
  intro c hc
  rcases h.1 c hc with hdigit | rfl
  · exact ascii_of_isDigit hdigit
  · decide

theorem ascii_of_mem_exponents (h : tail ∈ exponents) : ∀ c ∈ tail, c.toNat < 128 := by
  rcases h with rfl | ⟨_, ⟨_, hmark, sign, hsign, rfl⟩, ds, ⟨_, hds, _⟩, rfl⟩
  · exact fun c hc => absurd hc List.not_mem_nil
  · simp only [List.forall_mem_append]
    refine ⟨⟨?_, ascii_of_mem_signs hsign⟩, fun c hc => ascii_of_isDigit (hds c hc)⟩
    rcases hmark with rfl | rfl
    · exact List.forall_mem_singleton.mpr (by decide)
    · exact List.forall_mem_singleton.mpr (by decide)

/-- All characters of a number are ASCII. -/
theorem ascii_of_mem_numerals (h : cs ∈ numerals) : ∀ c ∈ cs, c.toNat < 128 := by
  obtain ⟨_, ⟨sign, hsign, m, hm, rfl⟩, tail, htail, rfl⟩ := h
  simp only [List.forall_mem_append]
  exact ⟨⟨ascii_of_mem_signs hsign, ascii_of_mem_mantissas hm⟩, ascii_of_mem_exponents htail⟩

/-- Exactly the texts of the language are rounded. All others are not, among them the
empty text and every text with a character that is not ASCII. -/
theorem round?_accepts_numerals (cs : List Char) (scale : Nat) :
    ((round? cs scale).isSome = true ↔ cs ∈ numerals) ∧
    (cs ∉ numerals → round? cs scale = none) ∧
    [] ∉ numerals ∧ ((∃ c ∈ cs, 128 ≤ c.toNat) → cs ∉ numerals) := by
  refine ⟨isSome_round?_iff scale, fun h => ?_, nil_not_mem_numerals, ?_⟩
  · rw [← isSome_round?_iff scale] at h
    simpa using h
  · rintro ⟨c, hc, hlarge⟩ hmem
    exact absurd (ascii_of_mem_numerals hmem c hc) (Nat.not_lt.mpr hlarge)

/-- An exponent may have zeros in front and be as large as it gets, and a digit of
another script is no digit. -/
theorem round?_accepts_numerals_edges : "+.5E-0001000".toList ∈ numerals ∧
    round? "+.5E-0001001".toList 3 = none ∧
    ("1٣".toList ∉ numerals ∧ round? "1٣".toList 3 = none) := by
  have hlarge : ∃ c ∈ "1٣".toList, 128 ≤ c.toNat := ⟨'٣', by decide, by decide⟩
  obtain ⟨_, hnone, _, hforeign⟩ := round?_accepts_numerals "1٣".toList 3
  refine ⟨?_, by decide +kernel, hforeign hlarge, hnone (hforeign hlarge)⟩
  exact (round?_accepts_numerals "+.5E-0001000".toList 3).1.mp (by decide +kernel)

end Munch.Decimal
