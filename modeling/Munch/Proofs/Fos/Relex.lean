import Munch.Proofs.Fos.Scan
import Munch.Proofs.Scan.Newline
import Munch.Sample.Check

/-!
# Scanning lexemes again

The tokens of FOS have a canonical form: `IsToken` lists what their kinds and
lexemes can be. Lexemes are not always pieces of the source, since decimals are
written with a fixed number of places, but whatever a scan yields as a token is in
the list (`isToken_of_mem_items`). A text of the list that a blank follows, or
nothing, is scanned as itself (`items_of_isToken`). So the lexemes of a source,
joined by blanks, are scanned to the same kinds and lexemes again.
-/

namespace Munch.Fos

open Reference

variable {kind : String} {v rest : List Char} {t : Token} {line : Nat}

/-! ## The tokens of FOS -/

/-- The kinds and lexemes of tokens. -/
inductive IsToken : String → List Char → Prop
  | string {v : List Char} : IsString v → IsToken stringKind v
  | decimal (units : Nat) : IsToken Kind.decimalLiteral (Decimal.fixedPoint units decimalPlaces)
  /-- A run that is no error: a keyword, a name or a whole number. -/
  | run {kind : String} {v : List Char} : IsRun v →
    (∀ line, run line v = .token ⟨kind, String.ofList v, line⟩) → IsToken kind v
  | operator {c : Char} {t : FixedToken} :
    operators.find? (·.text = String.singleton c) = some t → IsToken t.name [c]

/-- Whether a run is a token, and of which kind, does not depend on its line. -/
theorem run_of_eq_token (h : run line v = .token t) :
    t.lexeme = String.ofList v ∧
      ∀ line', run line' v = .token ⟨t.kind, String.ofList v, line'⟩ := by
  unfold run at h ⊢
  split at h
  · rename_i keyword hfind
    obtain rfl := Item.token.inj h
    have htext : keyword.text = String.ofList v := by simpa using List.find?_some hfind
    exact ⟨htext, fun line' => by rw [htext]⟩
  · split at h
    · rename_i hlower
      obtain rfl := Item.token.inj h
      exact ⟨rfl, fun line' => by rw [if_pos hlower]⟩
    · rename_i hlower
      split at h
      · rename_i hdigit
        obtain rfl := Item.token.inj h
        exact ⟨rfl, fun line' => by rw [if_neg hlower, if_pos hdigit]⟩
      · cases h

/-- What the direct lexer reads as a token is one of the list. -/
theorem isToken_of_item {c : Char} {cs : List Char} (h : (item line c cs).1 = .token t) :
    IsToken t.kind t.lexeme.toList := by
  unfold item at h
  split at h
  · rename_i lexeme rest hstring
    obtain rfl := Item.token.inj h
    rw [String.toList_ofList]
    exact .string (isString_of_string? hstring)
  · split at h
    · rename_i hc
      split at h
      · rename_i lexeme rest hdecimal
        obtain rfl := Item.token.inj h
        obtain ⟨whole, fraction, rfl, _, hwhole, hne, hfraction⟩ := of_decimal? hdecimal
        obtain ⟨units, hround⟩ := Decimal.exists_round?_of_digits hwhole hne hfraction 5
        rw [hround, Option.getD_some, String.toList_ofList]
        exact .decimal units
      · rename_i hdecimal
        obtain ⟨hlexeme, hrun⟩ := run_of_eq_token h
        rw [hlexeme, String.toList_ofList]
        exact .run (isLongestWord_run hc hdecimal).1 hrun
    · split at h
      · rename_i t' hfind
        obtain rfl := Item.token.inj h
        have htext : t'.text = String.singleton c := by simpa using List.find?_some hfind
        rw [htext, String.toList_singleton]
        exact .operator hfind
      · cases h

theorem isToken_of_mem_items {u : List Char} (h : .token t ∈ items line u) :
    IsToken t.kind t.lexeme.toList := by
  fun_induction items line u with
  | case1 => cases h
  | case2 => cases List.mem_singleton.mp h
  | case3 _ _ _ _ _ ih => exact ih h
  | case4 _ _ ih => exact ih h
  | case5 _ _ _ _ _ _ ih => exact ih h
  | case6 line c cs _ _ _ found ih =>
    rcases List.mem_cons.mp h with heq | h
    · exact isToken_of_item heq.symm
    · exact ih h

/-! ## A token in front of a blank -/

theorem not_isBlank_of_isAlphanum {c : Char} (h : c.isAlphanum = true) :
    Trivia.isBlank c = false := by
  have := isAlphanum_iff.mp h
  have hspace : c ≠ ' ' := by
    rintro rfl
    exact absurd h (by decide)
  simp only [Trivia.isBlank, hspace, decide_false, Bool.false_or, Bool.or_eq_false_iff,
    Bool.and_eq_false_iff, decide_eq_false_iff_not]
  omega

/-- A blank is no letter, no digit and no point. -/
theorem plain_of_isBlank {c : Char} (h : Trivia.isBlank c = true) :
    c.isAlphanum = false ∧ c ≠ '.' ∧ c ≠ '*' ∧ c ≠ '/' := by
  refine ⟨?_, ?_, ?_, ?_⟩
  · rw [← Bool.not_eq_true]
    intro halnum
    rw [not_isBlank_of_isAlphanum halnum] at h
    cases h
  · rintro rfl
    exact absurd h (by decide)
  · rintro rfl
    exact absurd h (by decide)
  · rintro rfl
    exact absurd h (by decide)

/-- Only strings begin with a quote. -/
theorem string?_eq_none {c : Char} (h : c ≠ '"') (cs : List Char) : string? (c :: cs) = none := by
  unfold string?
  split
  · rename_i heq
    exact absurd (List.cons.inj heq).1 h
  · rfl

theorem decimal?_append {whole fraction : List Char} (hwhole : ∀ c ∈ whole, c.isDigit = true)
    (hne : fraction ≠ []) (hfraction : ∀ c ∈ fraction, c.isDigit = true)
    (hrest : ∀ c ∈ rest.head?, Trivia.isBlank c = true) :
    decimal? (whole ++ '.' :: fraction ++ rest) = some (whole ++ '.' :: fraction, rest) := by
  obtain ⟨htake, hdrop⟩ := split_at_end (fun c hc => isAlphanum_of_isDigit (hwhole c hc))
    (show Char.isAlphanum '.' = false by decide) (fraction ++ rest)
  have hstop : ∀ c ∈ rest.head?, c.isDigit = false := by
    intro c hc
    have hplain := (plain_of_isBlank (hrest c hc)).1
    rw [Char.isAlphanum, Bool.or_eq_false_iff] at hplain
    exact hplain.2
  obtain ⟨htake', hdrop'⟩ := split_at_stop hfraction hstop
  rw [List.append_assoc, List.cons_append]
  simp only [decimal?, htake, hdrop, htake', hdrop']
  rw [if_pos ⟨List.all_eq_true.mpr hwhole, hne⟩]

theorem item_run_append {c : Char} {cs : List Char} (h : IsRun (c :: cs))
    (hrest : ∀ c ∈ rest.head?, Trivia.isBlank c = true) (line : Nat) :
    item line c (cs ++ rest) = (run line (c :: cs), rest) := by
  have hstop : ∀ c ∈ rest.head?, c.isAlphanum = false :=
    fun c hc => (plain_of_isBlank (hrest c hc)).1
  obtain ⟨htake, hdrop⟩ := split_at_stop h.2 hstop
  have hquote : c ≠ '"' := by
    rintro rfl
    exact absurd h.head (by decide)
  have hdecimal : decimal? (c :: cs ++ rest) = none := by
    simp only [decimal?, hdrop]
    split
    · exact absurd rfl (plain_of_isBlank (hrest '.' rfl)).2.1
    · rfl
  rw [List.cons_append] at htake hdrop hdecimal
  simp only [item, string?_eq_none hquote, h.head, if_true, hdecimal, htake, hdrop]

theorem isOperator_of_find? {c : Char} {t : FixedToken}
    (h : operators.find? (·.text = String.singleton c) = some t) : IsOperator [c] := by
  have htext : t.text = String.singleton c := by simpa using List.find?_some h
  exact ⟨t, List.mem_of_find?_eq_some h, by rw [htext, String.toList_singleton]⟩

/-- What the scan takes for a token is a word of FOS. -/
theorem IsToken.isWord (h : IsToken kind v) : IsWord v := by
  cases h with
  | string hstring => exact .inl hstring
  | decimal units =>
    obtain ⟨whole, fraction, heq, hwhole, ⟨hlength, hfraction⟩, _⟩ :=
      Decimal.exists_fixedPoint units (show 0 < decimalPlaces by decide)
    have hne : fraction ≠ [] := List.ne_nil_of_length_pos (by rw [hlength]; decide)
    exact .inr (.inl ⟨whole, fraction, heq, ⟨hwhole.ne_nil, hwhole.digits⟩, hne, hfraction⟩)
  | run hrun => exact .inr (.inr (.inr hrun))
  | operator hfind => exact .inr (.inr (.inl (isOperator_of_find? hfind)))

/-- The first character of a word is no blank, and a slash stands alone. -/
theorem IsWord.head_cases {c : Char} {cs : List Char} (h : IsWord (c :: cs)) :
    Trivia.isBlank c = false ∧ (c = '/' → cs = []) := by
  have halnum : c.isAlphanum = true → Trivia.isBlank c = false ∧ (c = '/' → cs = []) := by
    intro hc
    refine ⟨not_isBlank_of_isAlphanum hc, ?_⟩
    rintro rfl
    exact absurd hc (by decide)
  rcases h with hstring | hdecimal | hoperator | hrun
  · rw [hstring.head]
    exact ⟨by decide, fun hslash => absurd hslash (by decide)⟩
  · exact halnum hdecimal.head
  · have hall : ∀ t ∈ operators, t.text.toList.all (!Trivia.isBlank ·) = true := by decide
    obtain ⟨hnil, _⟩ := hoperator.head
    obtain ⟨t, ht, heq⟩ := hoperator
    have hchars := hall t ht
    rw [← heq, List.all_cons, Bool.and_eq_true, Bool.not_eq_true'] at hchars
    exact ⟨hchars.1, fun _ => hnil⟩
  · exact halnum hrun.head

/-- The direct lexer reads a token as itself, if a blank or nothing follows. -/
theorem item_of_isToken {c : Char} {cs : List Char} (h : IsToken kind (c :: cs))
    (hrest : ∀ c ∈ rest.head?, Trivia.isBlank c = true) (line : Nat) :
    item line c (cs ++ rest) = (.token ⟨kind, String.ofList (c :: cs), line⟩, rest) := by
  generalize hv : c :: cs = v at h
  cases h with
  | string hstring =>
    have hread := string?_append hstring rest
    rw [← hv, List.cons_append] at hread
    simp only [item, hread, hv]
  | decimal units =>
    obtain ⟨whole, fraction, heq, hwhole, ⟨hlength, hfraction⟩, _⟩ :=
      Decimal.exists_fixedPoint units (show 0 < decimalPlaces by decide)
    have hne : fraction ≠ [] := List.ne_nil_of_length_pos (by rw [hlength]; decide)
    have hhead : c.isAlphanum = true :=
      IsDecimal.head (v := cs)
        ⟨whole, fraction, hv.trans heq, ⟨hwhole.ne_nil, hwhole.digits⟩, hne, hfraction⟩
    have hquote : c ≠ '"' := by
      rintro rfl
      exact absurd hhead (by decide)
    have hdecimal := decimal?_append hwhole.digits hne hfraction hrest
    have hround := Decimal.round?_fixedPoint units (show 0 < 5 by decide)
    rw [← heq, ← hv, List.cons_append] at hdecimal
    simp only [item, string?_eq_none hquote, hhead, if_true, hdecimal, hv]
    rw [decimalPlaces, hround, Option.getD_some]
  | run hrun hkind =>
    rw [← hv] at hrun
    rw [item_run_append hrun hrest, hv, hkind]
  | operator hfind =>
    obtain ⟨rfl, rfl⟩ := List.cons.inj hv
    have htext := List.find?_some hfind
    obtain ⟨_, halnum, hquote⟩ := (isOperator_of_find? hfind).head
    simp only [item, List.nil_append, string?_eq_none hquote, halnum, Bool.false_eq_true, if_false,
      hfind]
    rw [decide_eq_true_iff.mp htext, String.singleton_eq_ofList]

/-- A word is no comment, if a blank or nothing follows. -/
theorem IsWord.isBare_append {c : Char} {cs : List Char} (h : IsWord (c :: cs))
    (hrest : ∀ c ∈ rest.head?, Trivia.isBlank c = true) : IsBare (c :: (cs ++ rest)) := by
  obtain ⟨hblank, hslash⟩ := h.head_cases
  -- a slash is followed by a blank or nothing, so no comment begins here
  have hmark : ∀ d, Trivia.isBlank d = false → ¬['/', d] <+: c :: (cs ++ rest) := by
    rintro d hd ⟨more, heq⟩
    obtain ⟨hc, htail⟩ := List.cons.inj heq
    rw [hslash hc.symm, List.nil_append] at htail
    rw [← htail] at hrest
    rw [hrest d rfl] at hd
    cases hd
  refine ⟨?_, hmark '*' (by decide), hmark '/' (by decide)⟩
  intro c' cs' heq
  rw [← (List.cons.inj heq).1]
  exact hblank

/-- A word in front of a blank is scanned as the direct lexer reads it. -/
theorem items_of_isWord {c : Char} {cs : List Char} (h : IsWord (c :: cs))
    (hrest : ∀ c ∈ rest.head?, Trivia.isBlank c = true) (line : Nat) :
    items line (c :: (cs ++ rest)) =
      (item line c (cs ++ rest)).1 :: items line (item line c (cs ++ rest)).2 :=
  have hbare := h.isBare_append hrest
  items_of_item line hbare.length?_eq_none hbare.opensBlock_eq_false

/-- A token is scanned as itself, if a blank or nothing follows. -/
theorem items_of_isToken (h : IsToken kind v) (hrest : ∀ c ∈ rest.head?, Trivia.isBlank c = true)
    (line : Nat) :
    items line (v ++ rest) = .token ⟨kind, String.ofList v, line⟩ :: items line rest := by
  cases v with
  | nil => exact absurd rfl h.isWord.ne_nil
  | cons c cs => rw [List.cons_append, items_of_isWord h.isWord hrest, item_of_isToken h hrest]

/-! ## Lexemes joined by blanks -/

theorem items_of_blanks {sep : List Char} (h : ∀ c ∈ sep, Trivia.isBlank c = true) (line : Nat)
    (rest : List Char) : items line (sep ++ rest) = items (line + sep.count '\n') rest := by
  induction sep generalizing line with
  | nil => rfl
  | cons c sep ih =>
    rw [List.forall_mem_cons] at h
    have hfits : (Segment.blank c).Fits table (sep ++ rest) := h.1
    have hlength : Trivia.length? (c :: (sep ++ rest)) = some 1 := hfits.length?
    rw [List.cons_append, items_of_trivia line hlength]
    simp only [List.take_succ_cons, List.take_zero, List.drop_succ_cons, List.drop_zero]
    rw [ih h.2, List.count_singleton, List.count_cons]
    congr 1
    omega

/-- Tokens joined by blanks are scanned to tokens of the same kinds and lexemes. -/
theorem items_intercalate {sep : List Char} (hsep : sep ≠ [])
    (hblank : ∀ c ∈ sep, Trivia.isBlank c = true) {tokens : List Token}
    (h : ∀ t ∈ tokens, IsToken t.kind t.lexeme.toList) (line : Nat) :
    ∃ again : List Token,
      items line (sep.intercalate (tokens.map fun t => t.lexeme.toList)) = again.map Item.token ∧
      again.map (fun t => (t.kind, t.lexeme)) = tokens.map (fun t => (t.kind, t.lexeme)) := by
  induction tokens generalizing line with
  | nil =>
    refine ⟨[], ?_, rfl⟩
    rw [List.map_nil, List.intercalate_nil, items]
    rfl
  | cons t tokens ih =>
    rw [List.forall_mem_cons] at h
    cases tokens with
    | nil =>
      refine ⟨[⟨t.kind, t.lexeme, line⟩], ?_, rfl⟩
      have hnone : ∀ c ∈ ([] : List Char).head?, Trivia.isBlank c = true := fun c hc => by cases hc
      have hitems := items_of_isToken h.1 hnone line
      rw [List.append_nil, String.ofList_toList, items] at hitems
      rw [List.map_singleton, List.intercalate_singleton, hitems]
      rfl
    | cons t' tokens =>
      obtain ⟨again, hagain, hlabels⟩ := ih h.2 (line + sep.count '\n')
      rw [List.map_cons] at hagain
      have hhead : ∀ rest : List Char, ∀ c ∈ (sep ++ rest).head?, Trivia.isBlank c = true := by
        intro rest c hc
        rw [List.head?_append_of_ne_nil sep hsep] at hc
        exact hblank c (List.mem_of_mem_head? hc)
      refine ⟨⟨t.kind, t.lexeme, line⟩ :: again, ?_, ?_⟩
      · rw [List.map_cons, List.map_cons, List.intercalate_cons_cons, List.append_assoc,
          items_of_isToken h.1 (hhead _), items_of_blanks hblank, hagain, String.ofList_toList]
        rfl
      · rw [List.map_cons, List.map_cons, hlabels]

theorem table_closed : table.Closed :=
  lexicon.table_closed

theorem tokenize_eq_ofItems (source : String) :
    table.tokenize source = .ofItems (items 1 source.toList) := by
  rw [Dfa.tokenize, Dfa.scan, Scanner.drain, drainOnto_eq_items _ rfl rfl]
  rfl

theorem ofItems_map_token (tokens : List Token) :
    ScanResult.ofItems (tokens.map Item.token) = ⟨tokens, []⟩ := by
  rw [ScanResult.ofItems, List.filterMap_map, List.filterMap_map]
  congr 1
  · exact List.filterMap_some
  · exact List.filterMap_eq_nil_iff.mpr fun _ _ => rfl

theorem isToken_of_mem_tokens {source : String} (h : t ∈ (table.tokenize source).tokens) :
    IsToken t.kind t.lexeme.toList := by
  rw [tokenize_eq_ofItems] at h
  obtain ⟨item, hitem, heq⟩ := List.mem_filterMap.mp h
  cases item with
  | token _ =>
    obtain rfl := Option.some.inj heq
    exact isToken_of_mem_items hitem
  | diagnostic _ => cases heq

theorem tokenize_intercalate {sep : String} (hsep : sep ≠ "")
    (hblank : ∀ c ∈ sep.toList, Trivia.isBlank c = true) {tokens : List Token}
    (h : ∀ t ∈ tokens, IsToken t.kind t.lexeme.toList) :
    ∃ again, table.tokenize (sep.intercalate (tokens.map Token.lexeme)) = ⟨again, []⟩ ∧
      again.map (fun t => (t.kind, t.lexeme)) = tokens.map (fun t => (t.kind, t.lexeme)) := by
  have hne : sep.toList ≠ [] := by
    rwa [Ne, String.toList_eq_nil_iff]
  obtain ⟨again, hagain, hlabels⟩ := items_intercalate hne hblank h 1
  refine ⟨again, ?_, hlabels⟩
  rw [← ofItems_map_token, ← hagain, tokenize_eq_ofItems, String.toList_intercalate, List.map_map]
  rfl

/-- Joined by single spaces, the lexemes of a source pass the check on them. -/
theorem relexes_tokens (source : String) : table.relexes (table.tokenize source).tokens = true := by
  have hspace : ∀ c ∈ (" " : String).toList, Trivia.isBlank c = true :=
    List.all_eq_true.mp (by decide)
  have htokens : ∀ t ∈ (table.tokenize source).tokens, IsToken t.kind t.lexeme.toList :=
    fun _ => isToken_of_mem_tokens
  obtain ⟨again, hagain, hlabels⟩ := tokenize_intercalate (by decide) hspace htokens
  rw [Dfa.relexes, hagain, hlabels, Bool.and_eq_true, beq_iff_eq]
  exact ⟨rfl, rfl⟩

/-- Joined by blanks, the lexemes of a source are scanned to the same kinds and
lexemes, whatever diagnostics the source has: in particular when they are joined by
single spaces. -/
theorem tokenize?_intercalate (source sep : String) (hsep : sep ≠ "")
    (hblank : ∀ c ∈ sep.toList, Trivia.isBlank c = true) :
    lexicon.table? = some table ∧ ∃ out again, table.tokenize? source = some out ∧
      table.tokenize? (sep.intercalate (out.tokens.map Token.lexeme)) = some again ∧
      again.errors = [] ∧
      again.tokens.map (fun t => (t.kind, t.lexeme)) =
        out.tokens.map (fun t => (t.kind, t.lexeme)) ∧
      table.relexes out.tokens = true := by
  have htokens : ∀ t ∈ (table.tokenize source).tokens, IsToken t.kind t.lexeme.toList :=
    fun _ => isToken_of_mem_tokens
  refine ⟨declares_lexicon.realizes.table?_eq, _, _, Dfa.tokenize?_of_closed table_closed source,
    Dfa.tokenize?_of_closed table_closed _, ?_⟩
  obtain ⟨again, hagain, hlabels⟩ := tokenize_intercalate hsep hblank htokens
  rw [hagain]
  exact ⟨rfl, hlabels, relexes_tokens source⟩

/-- A decimal that is rounded, a slash and a string, of a source that ends in a
comment without end. -/
theorem tokenize?_intercalate_rounded :
    ∃ out again, table.tokenize? "ab 07.1239996/\"/*\"?9a/*" = some out ∧
      table.tokenize? "ab\n\t7.12400\n\t/\n\t\"/*\"" = some again ∧ again.errors = [] ∧
      again.tokens.map (fun t => (t.kind, t.lexeme)) =
        [("identifier", "ab"), ("decimal_literal", "7.12400"), ("div", "/"),
          ("string_literal", "\"/*\"")] ∧
      table.relexes out.tokens = true := by
  obtain ⟨-, out, again, hout, hagain, herrors, hlabels, hrelexes⟩ :=
    tokenize?_intercalate "ab 07.1239996/\"/*\"?9a/*" "\n\t" (by decide)
      (List.all_eq_true.mp (by decide))
  have htokens : out.tokens = [⟨"identifier", "ab", 1⟩, ⟨"decimal_literal", "7.12400", 1⟩,
      ⟨"div", "/", 1⟩, ⟨"string_literal", "\"/*\"", 1⟩] := by
    rw [Dfa.tokenize?_of_closed table_closed, tokenize_eq_ofItems] at hout
    rw [← Option.some.inj hout]
    decide +kernel
  have hjoined : ("\n\t").intercalate (out.tokens.map Token.lexeme) =
      "ab\n\t7.12400\n\t/\n\t\"/*\"" := by
    rw [htokens]
    decide
  rw [hjoined] at hagain
  refine ⟨out, again, hout, hagain, herrors, ?_, hrelexes⟩
  rw [hlabels, htokens]
  rfl

end Munch.Fos
