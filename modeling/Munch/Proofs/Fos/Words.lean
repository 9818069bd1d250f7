import Munch.Proofs.Fos.Reference
import Munch.Proofs.Lexicon
import Munch.Proofs.Nfa.Classes

/-!
# The words of FOS

`Fos.rules` lists the tokens of FOS as regular expressions, and `Fos.lexicon` is
the lexicon that declares them (`declares_lexicon`). The rest says what the words
of the rules look like as texts (`exists_rule_iff`) and which rule comes first
for a word: the shapes exclude each other, but for the keywords, which are runs
of letters with an earlier rule of their own.
-/

namespace Munch.Fos

open Build Expression Reference

/-! ## The rules -/

/-- The rule of a token of fixed text. -/
def FixedToken.rule (t : FixedToken) : Rule :=
  ⟨t.name, .atom (.text (Bytes.ofText t.text) t.text_ne)⟩

def stringRule : Rule :=
  ⟨stringKind, Pattern.stringExpression⟩

def decimalRule : Rule :=
  ⟨Kind.decimalLiteral, Pattern.decimalExpression⟩

def runRule : Rule :=
  ⟨Kind.alphanum, Pattern.runExpression⟩

/-- The tokens in order of priority. -/
def rules : List Rule :=
  keywords.map FixedToken.rule ++ [stringRule] ++ [decimalRule] ++
    operators.map FixedToken.rule ++ [runRule]

theorem declares_declareFixed {l : Lexicon} {before : List Rule} (h : l.Declares before)
    (tokens : List FixedToken) :
    (declareFixed l tokens).Declares (before ++ tokens.map FixedToken.rule) := by
  induction tokens generalizing l before with
  | nil =>
    rw [List.map_nil, List.append_nil]
    exact h
  | cons t tokens ih =>
    have hall := ih (h.declareBuilt t.name ((builds_text _ t.text_ne).assembles _))
    rw [List.append_assoc] at hall
    exact hall

/-- Every token of the lexicon is declared in fresh states. -/
theorem declares_lexicon : lexicon.Declares rules := by
  have hkeywords := declares_declareFixed .empty keywords
  rw [List.nil_append] at hkeywords
  have hstring := hkeywords.declareBuilt stringKind (Pattern.builds_stringLiteral.assembles _)
  have hdecimal := hstring.declareBuilt Kind.decimalLiteral
    (Pattern.builds_decimalLiteral.assembles _)
  have hoperators := declares_declareFixed hdecimal operators
  have hrun := hoperators.declareBuilt Kind.alphanum (Pattern.builds_alphanumeric.assembles _)
  unfold lexicon rules
  exact hrun

/-! ## Shapes of words -/

/-- A string with its quotes. -/
def IsString (v : List Char) : Prop :=
  ∃ body, v = '"' :: (body ++ ['"']) ∧ ∀ c ∈ body, isQuotable c = true

/-- Digits, a point, digits. -/
def IsDecimal (v : List Char) : Prop :=
  ∃ whole fraction, v = whole ++ '.' :: fraction ∧
    (whole ≠ [] ∧ ∀ c ∈ whole, c.isDigit = true) ∧
    (fraction ≠ [] ∧ ∀ c ∈ fraction, c.isDigit = true)

/-- One or more letters or digits. -/
def IsRun (v : List Char) : Prop :=
  v ≠ [] ∧ ∀ c ∈ v, c.isAlphanum = true

theorem mem_fixed_iff (t : FixedToken) {v : List Char} :
    Bytes.ofChars v ∈ t.rule.pattern.language ↔ v = t.text.toList :=
  (spells_text t.text t.text_ne).mem_iff

theorem mem_string_iff {v : List Char} :
    Bytes.ofChars v ∈ stringRule.pattern.language ↔ IsString v :=
  Pattern.spells_strings.mem_iff

theorem mem_decimal_iff {v : List Char} :
    Bytes.ofChars v ∈ decimalRule.pattern.language ↔ IsDecimal v :=
  Pattern.spells_decimals.mem_iff

theorem mem_run_iff {v : List Char} :
    Bytes.ofChars v ∈ runRule.pattern.language ↔ IsRun v :=
  Pattern.spells_runs.mem_iff

/-! ## Words -/

/-- The text of an operator. -/
def IsOperator (v : List Char) : Prop :=
  ∃ t ∈ operators, v = t.text.toList

/-- A text that some rule has. -/
def IsWord (v : List Char) : Prop :=
  IsString v ∨ IsDecimal v ∨ IsOperator v ∨ IsRun v

theorem isRun_keyword {t : FixedToken} (ht : t ∈ keywords) : IsRun t.text.toList := by
  have hall : ∀ t ∈ keywords, t.text.toList ≠ [] ∧ t.text.toList.all Char.isAlphanum = true := by
    decide
  exact ⟨(hall t ht).1, List.all_eq_true.mp (hall t ht).2⟩

theorem operator_text {t : FixedToken} (ht : t ∈ operators) :
    ∃ c, t.text.toList = [c] ∧ c.isAlphanum = false ∧ c ≠ '"' := by
  have hall : ∀ t ∈ operators, t.text.toList.length = 1 ∧
      t.text.toList.all (fun c => !c.isAlphanum && c ≠ '"') = true := by
    decide
  obtain ⟨hlen, hchars⟩ := hall t ht
  obtain ⟨c, hc⟩ := List.length_eq_one_iff.mp hlen
  rw [hc] at hchars
  exact ⟨c, hc, by simpa using hchars⟩

/-- Which rules have a text. -/
theorem rule_cases {v : List Char} {rule : Rule} (hrule : rule ∈ rules)
    (hv : Bytes.ofChars v ∈ rule.pattern.language) :
    (∃ t ∈ keywords, rule = t.rule ∧ v = t.text.toList) ∨ (rule = stringRule ∧ IsString v) ∨
      (rule = decimalRule ∧ IsDecimal v) ∨
      (∃ t ∈ operators, rule = t.rule ∧ v = t.text.toList) ∨ (rule = runRule ∧ IsRun v) := by
  simp only [rules, List.mem_append, List.mem_map, List.mem_singleton] at hrule
  rcases hrule with (((⟨t, ht, rfl⟩ | rfl) | rfl) | ⟨t, ht, rfl⟩) | rfl
  · exact .inl ⟨t, ht, rfl, (mem_fixed_iff t).mp hv⟩
  · exact .inr (.inl ⟨rfl, mem_string_iff.mp hv⟩)
  · exact .inr (.inr (.inl ⟨rfl, mem_decimal_iff.mp hv⟩))
  · exact .inr (.inr (.inr (.inl ⟨t, ht, rfl, (mem_fixed_iff t).mp hv⟩)))
  · exact .inr (.inr (.inr (.inr ⟨rfl, mem_run_iff.mp hv⟩)))

/-- The texts that some rule has are the words. -/
theorem exists_rule_iff {v : List Char} :
    (∃ rule ∈ rules, Bytes.ofChars v ∈ rule.pattern.language) ↔ IsWord v := by
  constructor
  · rintro ⟨rule, hrule, hv⟩
    rcases rule_cases hrule hv with ⟨t, ht, _, rfl⟩ | ⟨_, h⟩ | ⟨_, h⟩ | ⟨t, ht, _, hv⟩ | ⟨_, h⟩
    · exact .inr (.inr (.inr (isRun_keyword ht)))
    · exact .inl h
    · exact .inr (.inl h)
    · exact .inr (.inr (.inl ⟨t, ht, hv⟩))
    · exact .inr (.inr (.inr h))
  · rintro (h | h | ⟨t, ht, h⟩ | h)
    · exact ⟨stringRule, by simp [rules], mem_string_iff.mpr h⟩
    · exact ⟨decimalRule, by simp [rules], mem_decimal_iff.mpr h⟩
    · refine ⟨t.rule, ?_, (mem_fixed_iff t).mpr h⟩
      simp only [rules, List.mem_append, List.mem_map]
      exact .inl (.inr ⟨t, ht, rfl⟩)
    · exact ⟨runRule, by simp [rules], mem_run_iff.mpr h⟩

theorem IsString.head {c : Char} {v : List Char} (h : IsString (c :: v)) : c = '"' := by
  obtain ⟨body, heq, _⟩ := h
  exact (List.cons.inj heq).1

theorem IsDecimal.head {c : Char} {v : List Char} (h : IsDecimal (c :: v)) :
    c.isAlphanum = true := by
  obtain ⟨whole, fraction, heq, hwhole, _⟩ := h
  cases whole with
  | nil => exact absurd rfl hwhole.1
  | cons d whole =>
    have hd := hwhole.2 d List.mem_cons_self
    rw [(List.cons.inj heq).1, Char.isAlphanum, hd, Bool.or_true]

theorem IsRun.head {c : Char} {v : List Char} (h : IsRun (c :: v)) : c.isAlphanum = true :=
  h.2 c List.mem_cons_self

theorem IsOperator.head {c : Char} {v : List Char} (h : IsOperator (c :: v)) :
    v = [] ∧ c.isAlphanum = false ∧ c ≠ '"' := by
  obtain ⟨t, ht, heq⟩ := h
  obtain ⟨d, hd, hchar⟩ := operator_text ht
  obtain ⟨rfl, rfl⟩ := List.cons.inj (heq.trans hd)
  exact ⟨rfl, hchar⟩

theorem IsDecimal.point_mem {v : List Char} (h : IsDecimal v) : '.' ∈ v := by
  obtain ⟨whole, fraction, rfl, _⟩ := h
  exact List.mem_append_right _ List.mem_cons_self

theorem IsRun.point_not_mem {v : List Char} (h : IsRun v) : '.' ∉ v :=
  fun hmem => absurd (h.2 '.' hmem) (by decide)

theorem IsWord.ne_nil {v : List Char} (h : IsWord v) : v ≠ [] := by
  rcases h with ⟨body, rfl, _⟩ | ⟨whole, fraction, rfl, _⟩ | ⟨t, ht, rfl⟩ | h
  · exact List.cons_ne_nil _ _
  · simp
  · obtain ⟨c, hc, _⟩ := operator_text ht
    rw [hc]
    exact List.cons_ne_nil _ _
  · exact h.1

theorem IsString.not_of_head {v : List Char} (h : IsString v) :
    ¬IsDecimal v ∧ ¬IsOperator v ∧ ¬IsRun v := by
  obtain ⟨body, rfl, _⟩ := h
  have hquote : Char.isAlphanum '"' = false := by decide
  refine ⟨fun hd => ?_, fun ho => ho.head.2.2 rfl, fun hr => ?_⟩
  · rw [hd.head] at hquote
    cases hquote
  · rw [hr.head] at hquote
    cases hquote

theorem IsOperator.not_of_head {v : List Char} (h : IsOperator v) : ¬IsDecimal v ∧ ¬IsRun v := by
  have hne : v ≠ [] := IsWord.ne_nil (.inr (.inr (.inl h)))
  cases v with
  | nil => exact absurd rfl hne
  | cons c v =>
    have hc := h.head.2.1
    refine ⟨fun hd => ?_, fun hr => ?_⟩
    · rw [hd.head] at hc
      cases hc
    · rw [hr.head] at hc
      cases hc

theorem IsDecimal.not_isRun {v : List Char} (h : IsDecimal v) : ¬IsRun v :=
  fun hr => hr.point_not_mem h.point_mem

/-- Words are printable. -/
theorem IsWord.printable {v : List Char} (h : IsWord v) :
    ∀ c ∈ v, 32 ≤ c.toNat ∧ c.toNat ≤ 126 := by
  have hdigit : ∀ c : Char, c.isDigit = true → 32 ≤ c.toNat ∧ c.toNat ≤ 126 := by
    intro c hc
    have := isDigit_iff.mp hc
    omega
  intro c hc
  rcases h with ⟨body, rfl, hbody⟩ | ⟨whole, fraction, rfl, hwhole, hfraction⟩ | ⟨t, ht, rfl⟩ | h
  · simp only [List.mem_cons, List.mem_append, List.not_mem_nil, or_false] at hc
    rcases hc with rfl | hc | rfl
    · decide
    · have hquotable : (isPrintable c && c ≠ '"') = true := hbody c hc
      exact isPrintable_iff.mp (Bool.and_eq_true_iff.mp hquotable).1
    · decide
  · rw [List.mem_append, List.mem_cons] at hc
    rcases hc with hc | rfl | hc
    · exact hdigit c (hwhole.2 c hc)
    · decide
    · exact hdigit c (hfraction.2 c hc)
  · have hall : ∀ t ∈ operators,
        t.text.toList.all (fun c => 32 ≤ c.toNat ∧ c.toNat ≤ 126) = true := by decide
    exact decide_eq_true_iff.mp (List.all_eq_true.mp (hall t ht) c hc)
  · have := isAlphanum_iff.mp (h.2 c hc)
    omega

/-! ## The first rule of a word -/

/-- The first rule of a run is that of a keyword, if there is one. -/
theorem name_of_isRun {v : List Char} {j : Nat} {rule : Rule}
    (h : FirstRule rules (Bytes.ofChars v) j rule) (hv : IsRun v) :
    (∃ t ∈ keywords, v = t.text.toList ∧ rule.name = t.name) ∨
      (∀ t ∈ keywords, v ≠ t.text.toList) ∧ rule.name = Kind.alphanum := by
  rcases rule_cases (List.mem_of_getElem? h.at_index) h.mem with
    ⟨t, ht, rfl, hvt⟩ | ⟨_, hs⟩ | ⟨_, hd⟩ | ⟨t, ht, _, hvt⟩ | ⟨rfl, _⟩
  · exact .inl ⟨t, ht, hvt, rfl⟩
  · exact absurd hv hs.not_of_head.2.2
  · exact absurd hv hd.not_isRun
  · exact absurd hv (IsOperator.not_of_head ⟨t, ht, hvt⟩).2
  · refine .inr ⟨?_, rfl⟩
    -- the rule of a keyword would come before that of runs
    intro t ht hvt
    have hfront : runRule ∈ keywords.map FixedToken.rule := by
      rw [rules, List.append_assoc, List.append_assoc, List.append_assoc] at h
      exact h.mem_front (List.mem_map_of_mem ht) ((mem_fixed_iff t).mpr hvt)
    obtain ⟨t', ht', hrule⟩ := List.mem_map.mp hfront
    have hnames : ∀ t ∈ keywords, t.name ≠ Kind.alphanum := by decide
    exact hnames t' ht' (congrArg Rule.name hrule)

theorem name_of_isString {v : List Char} {j : Nat} {rule : Rule}
    (h : FirstRule rules (Bytes.ofChars v) j rule) (hv : IsString v) : rule.name = stringKind := by
  rcases rule_cases (List.mem_of_getElem? h.at_index) h.mem with
    ⟨t, ht, _, rfl⟩ | ⟨rfl, _⟩ | ⟨_, hd⟩ | ⟨t, ht, _, hvt⟩ | ⟨_, hr⟩
  · exact absurd (isRun_keyword ht) hv.not_of_head.2.2
  · rfl
  · exact absurd hd hv.not_of_head.1
  · exact absurd ⟨t, ht, hvt⟩ hv.not_of_head.2.1
  · exact absurd hr hv.not_of_head.2.2

theorem name_of_isDecimal {v : List Char} {j : Nat} {rule : Rule}
    (h : FirstRule rules (Bytes.ofChars v) j rule) (hv : IsDecimal v) :
    rule.name = Kind.decimalLiteral := by
  rcases rule_cases (List.mem_of_getElem? h.at_index) h.mem with
    ⟨t, ht, _, rfl⟩ | ⟨_, hs⟩ | ⟨rfl, _⟩ | ⟨t, ht, _, hvt⟩ | ⟨_, hr⟩
  · exact absurd (isRun_keyword ht) hv.not_isRun
  · exact absurd hv hs.not_of_head.1
  · rfl
  · exact absurd hv (IsOperator.not_of_head ⟨t, ht, hvt⟩).1
  · exact absurd hr hv.not_isRun

theorem name_of_isOperator {v : List Char} {j : Nat} {rule : Rule}
    (h : FirstRule rules (Bytes.ofChars v) j rule) (hv : IsOperator v) :
    ∃ t ∈ operators, v = t.text.toList ∧ rule.name = t.name := by
  rcases rule_cases (List.mem_of_getElem? h.at_index) h.mem with
    ⟨t, ht, _, rfl⟩ | ⟨_, hs⟩ | ⟨_, hd⟩ | ⟨t, ht, rfl, hvt⟩ | ⟨_, hr⟩
  · exact absurd (isRun_keyword ht) hv.not_of_head.2
  · exact absurd hv hs.not_of_head.2.1
  · exact absurd hd hv.not_of_head.1
  · exact ⟨t, ht, hvt, rfl⟩
  · exact absurd hr hv.not_of_head.2

end Munch.Fos
