import Munch.Checked
import Munch.Proofs.Lexicon
import Munch.Proofs.Scan.LongestMatch

/-!
# Maximal munch

What a scanner does with the table of a lexicon, said with the rules alone. Where
it looks for a token, the printable non-empty prefixes of the text that some rule
has are the candidates. The longest candidate is the lexeme, and its kind is the
name of the first rule that has it; if there is no candidate, one character is
reported and dropped. That the empty word belongs to a rule never matters.
-/

namespace Munch

/-- A non-empty prefix of the text, in printable bytes, that some rule has. -/
structure Candidate (rules : List Rule) (u : List Char) (p : List UInt8) : Prop where
  ne_nil : p ≠ []
  is_front : p <+: Bytes.ofChars u
  printable : ∀ b ∈ p, 32 ≤ b.toNat ∧ b.toNat ≤ 126
  has_rule : ∃ rule ∈ rules, p ∈ rule.pattern.language

/-- The bytes of `v` are a candidate, and there is no longer one. -/
structure Longest (rules : List Rule) (u v : List Char) : Prop where
  candidate : Candidate rules u (Bytes.ofChars v)
  longest : ∀ p, Candidate rules u p → p.length ≤ (Bytes.ofChars v).length

theorem Longest.unique {rules : List Rule} {u v v' : List Char} (h : Longest rules u v)
    (h' : Longest rules u v') : v = v' := by
  have hlen : (Bytes.ofChars v).length = (Bytes.ofChars v').length :=
    Nat.le_antisymm (h'.longest _ h.candidate) (h.longest _ h'.candidate)
  apply Bytes.ofChars_injective
  exact (List.prefix_of_prefix_length_le h.candidate.is_front h'.candidate.is_front
    (Nat.le_of_eq hlen)).eq_of_length hlen

namespace Dfa

/-- In a closed table a scan enters no missing state. -/
theorem Closed.staysInside {d : Dfa} (h : d.Closed) (id : Nat) (cs : List Char) :
    d.staysInside id cs = true := by
  induction cs generalizing id with
  | nil => rfl
  | cons c cs ih =>
    rw [Dfa.staysInside]
    cases hstep : d.stepChar id c with
    | none => rfl
    | some target =>
      -- a character with an edge has a column, so it is one byte
      have hascii : c.toNat ≤ 127 := by
        by_contra hc
        rw [stepChar, next?_eq_none_of_not_ascii (Nat.lt_of_not_le hc)] at hstep
        cases hstep
      rw [← step_ofChar hascii] at hstep
      rw [Bool.and_eq_true, decide_eq_true_iff]
      exact ⟨h id (Bytes.ofChar c) target hstep, ih target⟩

end Dfa

theorem Scanner.isSafe_of_closed {d : Dfa} (hd : d.Closed) (s : Scanner) : s.isSafe d = true := by
  simp only [isSafe, hd.staysInside, Bool.or_true]

namespace Lexicon

variable {l : Lexicon} {rules : List Rule} {u v : List Char}

theorem Realizes.verdict_eq_some_iff (h : l.Realizes rules) {tag : Tag} :
    l.table.verdict v = some tag ↔ (∀ b ∈ Bytes.ofChars v, 32 ≤ b.toNat ∧ b.toNat ≤ 126) ∧
      ∃ j rule, FirstRule rules (Bytes.ofChars v) j rule ∧ tag = ⟨rule.name, j + 1⟩ := by
  rw [Dfa.verdict, Dfa.verdictFrom, Dfa.walkText?_eq_walk?, h.tag_eq_some_iff]
  simp only [Alphabet.mem_symbols]

/-- The prefixes that the table accepts are the candidates. -/
theorem Realizes.exists_verdict_of_candidate (h : l.Realizes rules) {p : List UInt8}
    (hp : Candidate rules u p) :
    ∃ v tag, v <+: u ∧ v ≠ [] ∧ p = Bytes.ofChars v ∧ l.table.verdict v = some tag := by
  have hascii : ∀ b ∈ p, b.toNat ≤ 127 := by
    intro b hb
    have := hp.printable b hb
    omega
  obtain ⟨v, hv, rfl⟩ := Bytes.exists_prefix_of_ascii hp.is_front hascii
  obtain ⟨rule, hrule, hmem⟩ := hp.has_rule
  obtain ⟨j, first, hfirst⟩ := FirstRule.exists hrule hmem
  refine ⟨v, _, hv, ?_, rfl, h.verdict_eq_some_iff.mpr ⟨hp.printable, j, first, hfirst, rfl⟩⟩
  rintro rfl
  exact hp.ne_nil rfl

/-- The search finds the longest candidate and the first rule that has it. -/
theorem Realizes.munch_cases (h : l.Realizes rules) (u : List Char) :
    (l.table.munch u = none ∧ ∀ p, ¬Candidate rules u p) ∨
      ∃ v j rule, v <+: u ∧ l.table.munch u = some (v.length, ⟨rule.name, j + 1⟩) ∧
        Longest rules u v ∧ FirstRule rules (Bytes.ofChars v) j rule := by
  rcases l.table.munch_cases u with ⟨hmunch, hsilent⟩ | ⟨v, tag, hv, hne, hmunch, hverdict, hsilent⟩
  · refine .inl ⟨hmunch, fun p hp => ?_⟩
    obtain ⟨v, tag, hv, hne, _, hverdict⟩ := h.exists_verdict_of_candidate hp
    rw [Dfa.verdict, hsilent v hv (List.length_pos_iff.mpr hne)] at hverdict
    cases hverdict
  · obtain ⟨hprintable, j, rule, hfirst, rfl⟩ := h.verdict_eq_some_iff.mp hverdict
    refine .inr ⟨v, j, rule, hv, hmunch, ⟨⟨?_, ?_, hprintable, ?_⟩, ?_⟩, hfirst⟩
    · exact fun hnil => hne (Bytes.ofChars_eq_nil_iff.mp hnil)
    · obtain ⟨rest, rfl⟩ := hv
      rw [Bytes.ofChars_append]
      exact List.prefix_append _ _
    · exact ⟨rule, List.mem_of_getElem? hfirst.at_index, hfirst.mem⟩
    · intro p hp
      -- of two prefixes of the text the shorter is a prefix of the longer
      obtain ⟨v', tag', hv', _, rfl, hverdict'⟩ := h.exists_verdict_of_candidate hp
      have hlen : v'.length ≤ v.length := by
        by_contra hlong
        rw [Dfa.verdict, hsilent v' hv' (Nat.lt_of_not_le hlong)] at hverdict'
        cases hverdict'
      obtain ⟨more, rfl⟩ := List.prefix_of_prefix_length_le hv' hv hlen
      rw [Bytes.ofChars_append, List.length_append]
      exact Nat.le_add_right _ _

theorem table_closed (l : Lexicon) : l.table.Closed :=
  l.rooted.determinize_closed

/-- With the table of a lexicon nothing but the search for a lexeme is left. -/
theorem next?_table {s : Scanner} (hpending : s.pending = none) (hhalted : s.halted = false) :
    s.next? l.table = some (s.skipTrivia.read l.table) := by
  rw [Scanner.next?, if_pos (s.isSafe_of_closed l.table_closed), Scanner.next, hpending]
  simp only [hhalted, Bool.false_eq_true, if_false]

/-- Where the scanner looks for a token, it takes the longest candidate as what
the first rule says that it is, and without candidate it drops one character. A
lexicon of expressions always has its table, and one more rule can always be
defined. -/
theorem next?_of_declares (h : l.Declares rules) :
    (∀ n f, ∀ rule : Rule, Expression.Assembles l.nfa n [(rule.pattern, f)] →
      ∃ l', ({ l with nfa := n } : Lexicon).define rule.name f = .ok l') ∧
    ∃ d, l.table? = some d ∧ ∀ s : Scanner, s.pending = none → s.halted = false →
      ∀ c cs, s.skipTrivia.rest = c :: cs → Trivia.opensBlock (c :: cs) = false →
        ((∀ p, ¬Candidate rules (c :: cs) p) ∧
          s.next? d = some (some (.diagnostic (.unrecognizedSymbol s.skipTrivia.line c)),
            { s.skipTrivia with rest := cs })) ∨
        ∃ lexeme rest j rule, c :: cs = lexeme ++ rest ∧ Longest rules (c :: cs) lexeme ∧
          FirstRule rules (Bytes.ofChars lexeme) j rule ∧
          let found := classify rule.name lexeme s.skipTrivia.line
          s.next? d = some (some found.1, { s.skipTrivia with rest := rest, pending := found.2 }) := by
  have hreal := h.realizes
  refine ⟨?_, l.table, hreal.table?_eq, ?_⟩
  · intro n f rule hn
    exact ⟨_, define_of_assembled hn.assembled rule.name⟩
  · intro s hpending hhalted c cs hrest hopens
    rw [next?_table hpending hhalted, Scanner.read]
    simp only [hrest, hopens, Bool.false_eq_true, if_false]
    rcases hreal.munch_cases (c :: cs) with
      ⟨hmunch, hnone⟩ | ⟨v, j, rule, ⟨rest, hv⟩, hmunch, hlongest, hfirst⟩
    · simp only [hmunch]
      exact .inl ⟨hnone, trivial⟩
    · refine .inr ⟨v, rest, j, rule, hv.symm, hlongest, hfirst, ?_⟩
      simp only [hmunch]
      rw [← hv, List.take_left, List.drop_left]

/-- Two rules for the letter `a`, the first of which has the empty word too. -/
def letters : List Rule :=
  [⟨"letters", .star (.atom (.literal 97))⟩, ⟨"letter", .atom (.literal 97)⟩]

theorem exists_declares_letters : ∃ l, Declares l letters := by
  have hone : Declares _ [letters[0]] :=
    .define .empty (Expression.Assembles.start.atom (.literal 97) rfl).star rfl
  exact ⟨_, .define hone (Expression.Assembles.start.atom (.literal 97) rfl) rfl⟩

theorem longest_letters : Longest letters ['a', '!'] ['a'] := by
  refine ⟨⟨by decide, ⟨[33], rfl⟩, List.forall_mem_singleton.mpr (by decide), letters[1],
    .tail _ (.head _), rfl⟩, ?_⟩
  intro p hp
  -- both rules have words of the letter only
  have hletter : ∀ b ∈ p, b = 97 := by
    obtain ⟨rule, hrule, hmem⟩ := hp.has_rule
    rcases List.mem_cons.mp hrule with rfl | hrule
    · obtain ⟨ws, rfl, hws⟩ := Language.mem_kstar.mp hmem
      intro b hb
      obtain ⟨w, hw, hbw⟩ := List.mem_flatten.mp hb
      rw [hws w hw] at hbw
      exact List.mem_singleton.mp hbw
    · rw [List.mem_singleton.mp hrule] at hmem
      rw [show p = [97] from hmem]
      exact fun b hb => List.mem_singleton.mp hb
  by_contra hlong
  have hall : p = Bytes.ofChars ['a', '!'] :=
    hp.is_front.eq_of_length_le (Nat.lt_of_not_le hlong)
  exact absurd (hletter 33 (by rw [hall]; decide)) (by decide)

/-- Both rules have the longest candidate, and the first one names the token. -/
theorem next?_of_declares_letters : ∃ l d, Declares l letters ∧ l.table? = some d ∧
    (Scanner.ofText " a!").next? d =
      some (some (.token ⟨"letters", "a", 1⟩), { rest := ['!'] }) := by
  obtain ⟨l, hl⟩ := exists_declares_letters
  obtain ⟨_, d, hd, hscan⟩ := next?_of_declares hl
  refine ⟨l, d, hl, hd, ?_⟩
  have hskip : (Scanner.ofText " a!").skipTrivia = { rest := ['a', '!'] } := by decide +kernel
  have hfirst : FirstRule letters (Bytes.ofChars ['a']) 0 letters[0] :=
    ⟨rfl, Language.mem_kstar.mpr ⟨[[97]], rfl, List.forall_mem_singleton.mpr rfl⟩,
      fun i hi => absurd hi (Nat.not_lt_zero i)⟩
  rcases hscan (Scanner.ofText " a!") rfl rfl 'a' ['!'] (by rw [hskip]) rfl with
    ⟨hnone, _⟩ | ⟨lexeme, rest, j, rule, heq, hlongest, hrule, hnext⟩
  · exact absurd longest_letters.candidate (hnone _)
  · obtain rfl := hlongest.unique longest_letters
    obtain ⟨rfl, rfl⟩ := hrule.unique hfirst
    obtain rfl : ['!'] = rest := (List.cons.inj heq).2
    rw [hnext, hskip]
    decide

end Lexicon

end Munch
