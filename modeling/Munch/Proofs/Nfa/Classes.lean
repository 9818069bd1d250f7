import Munch.Proofs.Nfa.Spelling

/-!
# The texts of the common classes

Each of the common token classes is a language of texts, said here without
expressions, fragments and bytes. The expression of a class spells its language
(`Pattern.spells_lineComments` and its companions), so the fragment that is built
for it, in whatever arena, accepts the texts of that language and no others
(`Pattern.decides_classes`).
-/

namespace Munch

open Expression

/-! ## Classes of characters -/

/-- A character that has a column. -/
def isPrintable (c : Char) : Bool :=
  32 ≤ c.toNat && c.toNat ≤ 126

theorem isPrintable_iff {c : Char} : isPrintable c = true ↔ 32 ≤ c.toNat ∧ c.toNat ≤ 126 := by
  rw [isPrintable, Bool.and_eq_true, decide_eq_true_iff, decide_eq_true_iff]

theorem isDigit_iff {c : Char} : c.isDigit = true ↔ 48 ≤ c.toNat ∧ c.toNat ≤ 57 :=
  Char.isDigit_iff_toNat

theorem isLower_iff {c : Char} : c.isLower = true ↔ 97 ≤ c.toNat ∧ c.toNat ≤ 122 := by
  show (decide (c.val ≥ 'a'.val) && decide (c.val ≤ 'z'.val)) = true ↔ _
  rw [Bool.and_eq_true, decide_eq_true_iff, decide_eq_true_iff]
  exact Iff.rfl

theorem isUpper_iff {c : Char} : c.isUpper = true ↔ 65 ≤ c.toNat ∧ c.toNat ≤ 90 := by
  show decide (c.val ≥ 'A'.val ∧ c.val ≤ 'Z'.val) = true ↔ _
  rw [decide_eq_true_iff]
  exact Iff.rfl

theorem isAlphanum_iff {c : Char} : c.isAlphanum = true ↔
    (65 ≤ c.toNat ∧ c.toNat ≤ 90 ∨ 97 ≤ c.toNat ∧ c.toNat ≤ 122) ∨
      48 ≤ c.toNat ∧ c.toNat ≤ 57 := by
  show (c.isUpper || c.isLower || c.isDigit) = true ↔ _
  rw [Bool.or_eq_true, Bool.or_eq_true, isUpper_iff, isLower_iff, isDigit_iff]

/-! ## Classes of texts -/

namespace Pattern

/-- Two slashes and printable characters. -/
def lineComments : Language Char :=
  {v | ∃ body, v = '/' :: '/' :: body ∧ ∀ c ∈ body, isPrintable c = true}

/-- The opening mark, printable characters or newlines, and the closing mark. -/
def blockComments : Language Char :=
  {v | ∃ body, v = '/' :: '*' :: (body ++ ['*', '/']) ∧
    ∀ c ∈ body, (isPrintable c || c = '\n') = true}

/-- A quote, printable characters other than the quote, and a quote. -/
def strings : Language Char :=
  {v | ∃ body, v = '"' :: (body ++ ['"']) ∧ ∀ c ∈ body, (isPrintable c && c ≠ '"') = true}

/-- One or more letters or digits. -/
def runs : Language Char :=
  {v | v ≠ [] ∧ ∀ c ∈ v, c.isAlphanum = true}

/-- Digits, a point, digits. -/
def decimals : Language Char :=
  {v | ∃ whole fraction, v = whole ++ '.' :: fraction ∧
    (whole ≠ [] ∧ ∀ c ∈ whole, c.isDigit = true) ∧
    (fraction ≠ [] ∧ ∀ c ∈ fraction, c.isDigit = true)}

theorem spells_lineComments : Spells lineExpression lineComments := by
  have hmark : Spells (.atom (.text [47, 47] (by decide))) {['/', '/']} :=
    spells_text "//" (by decide)
  have hbody : Spells (.atom (.anyExcept 10)) (oneChar isPrintable) := by
    apply spells_anyExcept (d := '\n') (by decide)
    intro c
    rw [isPrintable_iff]
    -- the newline is not printable, so to except it changes nothing
    refine ⟨fun hc => ⟨hc, ?_⟩, fun hc => hc.1⟩
    rintro rfl
    exact absurd hc.1 (by decide)
  have hwords : {['/', '/']} * KStar.kstar (oneChar isPrintable) = lineComments := by
    ext v
    constructor
    · rintro ⟨_, rfl, body, hbody, rfl⟩
      exact ⟨body, rfl, mem_kstar_oneChar.mp hbody⟩
    · rintro ⟨body, rfl, hbody⟩
      exact ⟨_, rfl, body, mem_kstar_oneChar.mpr hbody, rfl⟩
  exact hwords ▸ hmark.concat hbody.star

/-- Something of a class between two marks. -/
theorem mul_kstar_mul_oneChar (opener closer : List Char) (p : Char → Bool) :
    {opener} * KStar.kstar (oneChar p) * {closer} =
      ({v | ∃ body, v = opener ++ (body ++ closer) ∧ ∀ c ∈ body, p c = true} : Language Char) := by
  ext v
  constructor
  · rintro ⟨_, ⟨_, rfl, body, hbody, rfl⟩, _, rfl, rfl⟩
    exact ⟨body, List.append_assoc _ _ _, mem_kstar_oneChar.mp hbody⟩
  · rintro ⟨body, rfl, hbody⟩
    exact ⟨_, ⟨_, rfl, body, mem_kstar_oneChar.mpr hbody, rfl⟩, _, rfl, List.append_assoc _ _ _⟩

theorem spells_blockComments : Spells blockExpression blockComments := by
  have hopener : Spells (.atom (.text [47, 42] (by decide))) {['/', '*']} :=
    spells_text "/*" (by decide)
  have hcloser : Spells (.atom (.text [42, 47] (by decide))) {['*', '/']} :=
    spells_text "*/" (by decide)
  have hbody : Spells (.atom .anyChar) (oneChar fun c => isPrintable c || c = '\n') := by
    apply spells_anyChar
    intro c
    rw [Bool.or_eq_true, isPrintable_iff, decide_eq_true_iff]
  have hall : Spells blockExpression _ := (hopener.concat hbody.star).concat hcloser
  rw [mul_kstar_mul_oneChar] at hall
  exact hall

theorem spells_strings : Spells stringExpression strings := by
  have hquote : Spells (.atom (.literal 34)) {['"']} := spells_literal (c := '"') (by decide)
  have hbody : Spells (.atom (.anyExcept 34)) (oneChar fun c => isPrintable c && c ≠ '"') := by
    apply spells_anyExcept (d := '"') (by decide)
    intro c
    rw [Bool.and_eq_true, isPrintable_iff, decide_eq_true_iff]
  have hall : Spells stringExpression _ := (hquote.concat hbody.star).concat hquote
  rw [mul_kstar_mul_oneChar] at hall
  exact hall

theorem spells_digit : Spells digitExpression (oneChar Char.isDigit) :=
  spells_range _ (by decide) fun _ => isDigit_iff

theorem spells_runs : Spells runExpression runs := by
  have hlower : Spells (.atom (.range 97 122 (by decide))) (oneChar Char.isLower) :=
    spells_range _ (by decide) fun _ => isLower_iff
  have hupper : Spells (.atom (.range 65 90 (by decide))) (oneChar Char.isUpper) :=
    spells_range _ (by decide) fun _ => isUpper_iff
  have hclass : oneChar Char.isLower + oneChar Char.isUpper + oneChar Char.isDigit =
      oneChar Char.isAlphanum := by
    rw [oneChar_add, oneChar_add]
    congr 1
    funext c
    show (c.isLower || c.isUpper || c.isDigit) = (c.isUpper || c.isLower || c.isDigit)
    rw [Bool.or_comm c.isLower]
  have hall : Spells runExpression _ := ((hlower.union hupper).union spells_digit).plus
  have hwords : oneChar Char.isAlphanum * KStar.kstar (oneChar Char.isAlphanum) = runs := by
    ext v
    exact mem_plus_oneChar
  rw [hclass, hwords] at hall
  exact hall

theorem spells_decimals : Spells decimalExpression decimals := by
  have hpoint : Spells (.atom (.literal 46)) {['.']} := spells_literal (c := '.') (by decide)
  have hall : Spells decimalExpression _ :=
    (spells_digit.plus.concat hpoint).concat spells_digit.plus
  have hwords : oneChar Char.isDigit * KStar.kstar (oneChar Char.isDigit) * {['.']} *
      (oneChar Char.isDigit * KStar.kstar (oneChar Char.isDigit)) = decimals := by
    ext v
    constructor
    · rintro ⟨_, ⟨whole, hwhole, _, rfl, rfl⟩, fraction, hfraction, rfl⟩
      exact ⟨whole, fraction, List.append_assoc whole ['.'] fraction, mem_plus_oneChar.mp hwhole,
        mem_plus_oneChar.mp hfraction⟩
    · rintro ⟨whole, fraction, rfl, hwhole, hfraction⟩
      exact ⟨_, ⟨whole, mem_plus_oneChar.mpr hwhole, _, rfl, rfl⟩, fraction,
        mem_plus_oneChar.mpr hfraction, List.append_assoc whole ['.'] fraction⟩
  rw [hwords] at hall
  exact hall

end Pattern

/-! ## Fragments of the classes -/

namespace Build

variable {act : Build Fragment} {r : Expression} {T : Language Char} {n : Nfa}

/-- What the fragment that the action adds to the arena says about a text. -/
def answer? (act : Build Fragment) (n : Nfa) (v : List Char) : Option Bool :=
  (act.run n).2.accepts? (act.run n).1 (Bytes.ofChars v)

/-- Asked about any text, the fragment that the action adds to the arena has an answer,
and it says yes to the texts of the language and to no others. -/
def Decides (act : Build Fragment) (n : Nfa) (T : Language Char) : Prop :=
  ∀ v, ∃ answer, act.answer? n v = some answer ∧ (answer = true ↔ v ∈ T)

theorem Builds.decides (h : Builds act r) (hr : Spells r T) (hn : n.Closed) : act.Decides n T := by
  intro v
  have hall := (h.assembles n).assembled
  have hden : (act.run n).2.Denotes (act.run n).1 r.language := hall.denotes _ List.mem_cons_self
  refine ⟨_, (hall.closed hn).accepts?_eq_accepts hden.start_lt _, ?_⟩
  rw [hden.accepts_iff, hr.mem_iff]

theorem Decides.answer?_eq_true_iff (h : act.Decides n T) (v : List Char) :
    act.answer? n v = some true ↔ v ∈ T := by
  obtain ⟨answer, hanswer, hmem⟩ := h v
  rw [hanswer, Option.some.injEq, hmem]

theorem Decides.answer?_eq_false_iff (h : act.Decides n T) (v : List Char) :
    act.answer? n v = some false ↔ v ∉ T := by
  obtain ⟨answer, hanswer, hmem⟩ := h v
  rw [hanswer, Option.some.injEq, ← hmem, Bool.not_eq_true]

end Build

namespace Pattern

open Build

/-- In any arena whose edges lead to states, the fragments of the common classes accept
exactly the texts of their classes. -/
theorem decides_classes {n : Nfa} (hn : n.Closed) :
    lineComment.Decides n lineComments ∧ blockComment.Decides n blockComments ∧
      stringLiteral.Decides n strings ∧ alphanumeric.Decides n runs ∧
      decimalLiteral.Decides n decimals ∧ digit.Decides n (oneChar Char.isDigit) :=
  ⟨builds_lineComment.decides spells_lineComments hn,
    builds_blockComment.decides spells_blockComments hn,
    builds_stringLiteral.decides spells_strings hn, builds_alphanumeric.decides spells_runs hn,
    builds_decimalLiteral.decides spells_decimals hn, builds_digit.decides spells_digit hn⟩

/-- In an arena that holds a loop already: a comment may have a closing mark inside, a line
comment does not reach beyond its line, and a quote alone is no string. -/
theorem decides_classes_beside_loop :
    (⟨#[{ edges := [(97, 0)] }]⟩ : Nfa).Closed ∧
      blockComment.answer? ⟨#[{ edges := [(97, 0)] }]⟩ ['/', '*', '*', '/', '*', '/'] = some true ∧
      lineComment.answer? ⟨#[{ edges := [(97, 0)] }]⟩ ['/', '/', '\n'] = some false ∧
      stringLiteral.answer? ⟨#[{ edges := [(97, 0)] }]⟩ ['"'] = some false := by
  have hclosed : (⟨#[{ edges := [(97, 0)] }]⟩ : Nfa).Closed := by decide
  obtain ⟨hline, hblock, hstring, _⟩ := decides_classes hclosed
  refine ⟨hclosed, (hblock.answer?_eq_true_iff _).mpr ⟨['*', '/'], rfl, List.all_eq_true.mp rfl⟩,
    (hline.answer?_eq_false_iff _).mpr ?_, (hstring.answer?_eq_false_iff _).mpr ?_⟩
  · rintro ⟨body, heq, hbody⟩
    obtain rfl : ['\n'] = body := (List.cons.inj (List.cons.inj heq).2).2
    exact absurd (hbody '\n' List.mem_cons_self) (by decide)
  · rintro ⟨body, heq, _⟩
    simpa using congrArg List.length heq

end Pattern

end Munch
