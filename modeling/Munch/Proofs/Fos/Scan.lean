import Munch.Proofs.Fos.Lexeme
import Munch.Proofs.Scan.Drain

/-!
# Scanning FOS

The scanner with the table of FOS yields what the direct lexer yields. One item
is settled by `read_eq_item`, which compares the kinds that the rules name with
what the direct lexer says. Blanks and comments are dropped one at a time by the
direct lexer and all at once by the scanner (`items_skip`). A whole scan is put
together from its items by induction over the length of the text
(`drainOnto_eq_items`).
-/

namespace Munch.Fos

open Reference

variable {c : Char} {cs v rest : List Char} {s : Scanner}

/-! ## One item -/

theorem classify_of_plain {kind : String} (hdecimal : kind ≠ Kind.decimalLiteral)
    (hrun : kind ≠ Kind.alphanum) (lexeme : List Char) (line : Nat) :
    classify kind lexeme line = (.token ⟨kind, String.ofList lexeme, line⟩, none) := by
  rw [classify, if_neg hdecimal, if_neg hrun]

theorem classify_decimal {lexeme rounded : List Char}
    (h : Decimal.round? lexeme decimalPlaces = some rounded) (line : Nat) :
    classify Kind.decimalLiteral lexeme line =
      (.token ⟨Kind.decimalLiteral, String.ofList rounded, line⟩, none) := by
  rw [classify, if_pos rfl, h]

theorem find?_text {tokens : List FixedToken} {t : FixedToken} (ht : t ∈ tokens)
    (hnames : ∀ t ∈ tokens, ∀ t' ∈ tokens, t.text = t'.text → t.name = t'.name) :
    ∃ t', tokens.find? (·.text = t.text) = some t' ∧ t'.name = t.name ∧ t'.text = t.text := by
  cases hfind : tokens.find? (·.text = t.text) with
  | none =>
    have := List.find?_eq_none.mp hfind t ht
    simp at this
  | some t' =>
    have htext : t'.text = t.text := by simpa using List.find?_some hfind
    exact ⟨t', rfl, hnames t' (List.mem_of_find?_eq_some hfind) t ht htext, htext⟩

/-- The scanner takes the longest word. -/
theorem read_of_isLongestWord (hrest : s.rest = c :: cs)
    (hopens : Trivia.opensBlock (c :: cs) = false) (h : IsLongestWord (c :: cs) v)
    (happ : v ++ rest = c :: cs) :
    ∃ j rule, FirstRule rules (Bytes.ofChars v) j rule ∧
      let found := classify rule.name v s.line
      s.read table = (some found.1, { s with rest := rest, pending := found.2 }) := by
  obtain ⟨j, rule, hmunch, hfirst⟩ := munch_of_isLongestWord h
  refine ⟨j, rule, hfirst, ?_⟩
  rw [Scanner.read]
  simp only [hrest, hopens, Bool.false_eq_true, if_false, hmunch]
  rw [← happ, List.take_left, List.drop_left]

/-- Without word the scanner drops one character. -/
theorem read_of_no_word (hrest : s.rest = c :: cs)
    (hopens : Trivia.opensBlock (c :: cs) = false) (h : ∀ v, v <+: c :: cs → ¬IsWord v) :
    s.read table = (some (.diagnostic (.unrecognizedSymbol s.line c)), { s with rest := cs }) := by
  rw [Scanner.read]
  simp only [hrest, hopens, Bool.false_eq_true, if_false, munch_of_no_word h]

/-- What a run of letters and digits is, by its rule and by hand. -/
theorem classify_run {j : Nat} {rule : Rule} (h : FirstRule rules (Bytes.ofChars v) j rule)
    (hv : IsRun v) (line : Nat) : classify rule.name v line = (run line v, none) := by
  rcases name_of_isRun h hv with ⟨t, ht, rfl, hname⟩ | ⟨hnone, hname⟩
  · obtain ⟨t', hfind, hname', htext⟩ := find?_text ht (by decide)
    have hplain : ∀ t ∈ keywords, t.name ≠ Kind.decimalLiteral ∧ t.name ≠ Kind.alphanum := by
      decide
    rw [hname, classify_of_plain (hplain t ht).1 (hplain t ht).2, run, String.ofList_toList, hfind]
    simp only [hname', htext]
  · have hfind : keywords.find? (·.text = String.ofList v) = none := by
      rw [List.find?_eq_none]
      intro t ht heq
      apply hnone t ht
      rw [decide_eq_true_iff.mp heq, String.toList_ofList]
    rw [hname, run, hfind, classify, if_neg (by decide), if_pos rfl]
    simp only
    split
    · rfl
    · split <;> rfl

/-- What an operator is, by its rule and by hand. -/
theorem classify_operator {j : Nat} {rule : Rule} {t : FixedToken}
    (h : FirstRule rules (Bytes.ofChars [c]) j rule) (hop : IsOperator [c])
    (hfind : operators.find? (·.text = String.singleton c) = some t) (line : Nat) :
    classify rule.name [c] line = (.token ⟨t.name, t.text, line⟩, none) := by
  obtain ⟨t', ht', htext, hname⟩ := name_of_isOperator h hop
  have hsame : String.singleton c = t'.text := by
    rw [String.singleton_eq_ofList, htext, String.ofList_toList]
  obtain ⟨found, hfound, hname', htext'⟩ := find?_text ht' (by decide)
  rw [← hsame, hfind] at hfound
  obtain rfl := Option.some.inj hfound
  have hplain : ∀ t ∈ operators, t.name ≠ Kind.decimalLiteral ∧ t.name ≠ Kind.alphanum := by
    decide
  rw [hname, classify_of_plain (hplain t' ht').1 (hplain t' ht').2, hname', htext', ← hsame,
    String.singleton_eq_ofList]

/-- The scanner takes the longest word as what its classification says, if no token
is owed after it. -/
theorem read_of_classify (hrest : s.rest = c :: cs)
    (hopens : Trivia.opensBlock (c :: cs) = false) (hpending : s.pending = none)
    (h : IsLongestWord (c :: cs) v) (happ : v ++ rest = c :: cs) {found : Item}
    (hfound : ∀ j rule, FirstRule rules (Bytes.ofChars v) j rule →
      classify rule.name v s.line = (found, none)) :
    s.read table = (some found, { s with rest := rest }) := by
  obtain ⟨j, rule, hfirst, hread⟩ := read_of_isLongestWord hrest hopens h happ
  rw [hread, hfound j rule hfirst, ← hpending]

/-- Every decimal that the direct lexer reads is a number. -/
theorem isSome_round?_of_decimal? {u : List Char} (h : decimal? u = some (v, rest)) :
    (Decimal.round? v decimalPlaces).isSome = true := by
  obtain ⟨whole, fraction, rfl, _, hwhole, hne, hfraction⟩ := of_decimal? h
  obtain ⟨units, hround⟩ := Decimal.exists_round?_of_digits hwhole hne hfraction decimalPlaces
  rw [hround]
  rfl

/-- The scanner reads what the direct lexer reads. -/
theorem read_eq_item (hrest : s.rest = c :: cs) (hopens : Trivia.opensBlock (c :: cs) = false)
    (hpending : s.pending = none) :
    s.read table = (some (item s.line c cs).1, { s with rest := (item s.line c cs).2 }) := by
  -- the cases of the direct lexer: string, decimal, run, operator, unknown symbol
  unfold item
  split
  · rename_i lexeme rest hstring
    apply read_of_classify hrest hopens hpending (isLongestWord_of_string? hstring)
      (append_of_string? hstring).1
    intro j rule hfirst
    rw [name_of_isString hfirst (isString_of_string? hstring)]
    exact classify_of_plain (by decide) (by decide) lexeme s.line
  · rename_i hstring
    split
    · rename_i hc
      split
      · rename_i lexeme rest hdecimal
        obtain ⟨hword, hlongest⟩ := isLongestWord_of_decimal? hc hdecimal
        apply read_of_classify hrest hopens hpending hlongest (append_of_decimal? hdecimal).1
        intro j rule hfirst
        obtain ⟨rounded, hrounded⟩ := Option.isSome_iff_exists.mp (isSome_round?_of_decimal? hdecimal)
        rw [name_of_isDecimal hfirst hword, classify_decimal hrounded]
        rw [decimalPlaces] at hrounded
        rw [hrounded, Option.getD_some]
      · rename_i hdecimal
        obtain ⟨hword, hlongest⟩ := isLongestWord_run hc hdecimal
        apply read_of_classify hrest hopens hpending hlongest List.takeWhile_append_dropWhile
        exact fun j rule hfirst => classify_run hfirst hword s.line
    · rename_i hc
      have hsymbol : ∀ v, v <+: c :: cs → IsWord v → v = [c] ∧ IsOperator [c] :=
        fun v hv hword => hword.of_symbol hv (Bool.eq_false_iff.mpr hc) hstring
      split
      · rename_i t hfind
        have htext : t.text = String.singleton c := by simpa using List.find?_some hfind
        have hop : IsOperator [c] :=
          ⟨t, List.mem_of_find?_eq_some hfind, by rw [htext, String.toList_singleton]⟩
        have hlongest : IsLongestWord (c :: cs) [c] := by
          refine ⟨⟨cs, rfl⟩, .inr (.inr (.inl hop)), fun v hv hword => ?_⟩
          rw [(hsymbol v hv hword).1]
        apply read_of_classify hrest hopens hpending hlongest rfl
        exact fun j rule hfirst => classify_operator hfirst hop hfind s.line
      · rename_i hfind
        apply read_of_no_word hrest hopens
        intro v hv hword
        obtain ⟨t, ht, htext⟩ := (hsymbol v hv hword).2
        refine List.find?_eq_none.mp hfind t ht (decide_eq_true ?_)
        rw [← String.ofList_toList (s := t.text), ← htext, String.singleton_eq_ofList]

/-! ## Blanks and comments -/

/-- Looking for the end of a block comment, with lines counted on the way. -/
theorem afterBlock?_of_closeAt? {passed k : Nat} (line : Nat) {body : List Char}
    (h : Trivia.closeAt? passed body = some k) :
    afterBlock? line body =
      some (line + (body.take (k - passed)).count '\n', body.drop (k - passed)) := by
  fun_induction Trivia.closeAt? passed body generalizing line with
  | case1 passed rest =>
    obtain rfl := Option.some.inj h
    simp [afterBlock?]
  | case2 passed c cs hclose ih =>
    have hk := Trivia.le_of_closeAt? h
    have hlen : k - passed = (k - (passed + 1)) + 1 := by omega
    rw [afterBlock?, ih _ h, hlen, List.take_succ_cons, List.drop_succ_cons, List.count_cons]
    · congr 2
      by_cases hc : c = '\n'
      · simp only [hc, if_true, beq_self_eq_true]
        omega
      · simp [hc]
    · exact hclose
  | case3 => cases h

theorem afterBlock?_of_closeAt?_none {passed : Nat} (line : Nat) {body : List Char}
    (h : Trivia.closeAt? passed body = none) : afterBlock? line body = none := by
  fun_induction Trivia.closeAt? passed body generalizing line with
  | case1 passed rest => cases h
  | case2 passed c cs hclose ih =>
    rw [afterBlock?]
    · exact ih _ h
    · exact hclose
  | case3 => rfl

/-- A line comment ends in front of the newline. -/
theorem split_line (body : List Char) :
    let line := body.takeWhile (· ≠ '\n')
    body.take line.length = line ∧ body.drop line.length = body.dropWhile (· ≠ '\n') ∧
      line.count '\n' = 0 := by
  refine ⟨(List.prefix_iff_eq_take.mp (List.takeWhile_prefix _)).symm, ?_, ?_⟩
  · calc body.drop (body.takeWhile (· ≠ '\n')).length
        = (body.takeWhile (· ≠ '\n') ++ body.dropWhile (· ≠ '\n')).drop
            (body.takeWhile (· ≠ '\n')).length := by rw [List.takeWhile_append_dropWhile]
      _ = body.dropWhile (· ≠ '\n') := List.drop_left
  · rw [List.count_eq_zero]
    intro hmem
    exact absurd (List.mem_takeWhile_imp hmem) (by decide)

/-- The direct lexer drops what the scanner measures as a blank or comment. -/
theorem items_of_trivia (line : Nat) {u : List Char} {k : Nat} (h : Trivia.length? u = some k) :
    items line u = items (line + (u.take k).count '\n') (u.drop k) := by
  unfold Trivia.length? at h
  split at h
  -- a block comment, a line comment, a blank
  · rename_i body
    have hk := Trivia.le_of_closeAt? h
    obtain ⟨m, rfl⟩ : ∃ m, k = m + 2 := ⟨k - 2, by omega⟩
    rw [items]
    split
    · rename_i hnone
      rw [afterBlock?_of_closeAt? line h] at hnone
      cases hnone
    · rename_i line' rest hafter
      rw [afterBlock?_of_closeAt? line h] at hafter
      obtain ⟨rfl, rfl⟩ := Prod.mk.inj (Option.some.inj hafter)
      simp
  · rename_i body
    obtain rfl := Option.some.inj h
    obtain ⟨htake, hdrop, hcount⟩ := split_line body
    rw [items, Nat.add_comm 2]
    simp only [List.take_succ_cons, List.drop_succ_cons, htake, hdrop]
    rw [List.count_cons_of_ne (by decide), List.count_cons_of_ne (by decide), hcount, Nat.add_zero]
  · rename_i c cs hblock hline
    rw [Option.ite_none_right_eq_some] at h
    obtain ⟨hblank, hk⟩ := h
    obtain rfl := Option.some.inj hk
    rw [items, if_pos hblank]
    · rw [List.take_succ_cons, List.drop_succ_cons, List.take_zero, List.drop_zero,
        List.count_singleton]
      by_cases hc : c = '\n'
      · simp [hc]
      · simp [hc]
    · exact hblock
    · exact hline
  · cases h

theorem items_skip (line : Nat) (u : List Char) :
    items (Trivia.skip line u).1 (Trivia.skip line u).2 = items line u := by
  fun_induction Trivia.skip line u with
  | case1 => rfl
  | case2 line u k h ih => rw [ih, items_of_trivia line h]

theorem length?_skip (line : Nat) (u : List Char) :
    Trivia.length? (Trivia.skip line u).2 = none := by
  fun_induction Trivia.skip line u with
  | case1 line u h => exact h
  | case2 line u k h ih => exact ih

/-- Where the scanner stops in front of a block comment, the comment has no end. -/
theorem items_of_opensBlock (line : Nat) {u : List Char} (h : Trivia.length? u = none)
    (hopens : Trivia.opensBlock u = true) : items line u = [.diagnostic (.unterminatedComment line)] := by
  unfold Trivia.opensBlock at hopens
  split at hopens
  · rename_i body
    have hnone : afterBlock? line body = none := afterBlock?_of_closeAt?_none line h
    rw [items]
    split
    · rfl
    · rename_i hsome
      rw [hnone] at hsome
      cases hsome
  · cases hopens

theorem items_of_item (line : Nat) (h : Trivia.length? (c :: cs) = none)
    (hopens : Trivia.opensBlock (c :: cs) = false) :
    items line (c :: cs) = (item line c cs).1 :: items line (item line c cs).2 := by
  unfold Trivia.length? at h
  split at h
  · rename_i body heq
    rw [heq] at hopens
    cases hopens
  · cases h
  · rename_i c' cs' hblock hline heq
    obtain ⟨rfl, rfl⟩ := List.cons.inj heq
    have hblank : ¬Trivia.isBlank c = true := by
      intro hblank
      rw [if_pos hblank] at h
      cases h
    rw [items, if_neg hblank]
    · exact hblock
    · exact hline
  · rename_i heq
    cases heq

/-! ## A whole scan -/

/-- From a text without trivia in front, the scanner ends as the direct lexer does,
or yields the same item and goes on with less. -/
theorem read_cases (s : Scanner) (hpending : s.pending = none)
    (h : Trivia.length? s.rest = none) :
    (s.read table = (none, { s with halted := true }) ∧ items s.line s.rest = []) ∨
    (∃ it, s.read table = (some it, { s with halted := true }) ∧ items s.line s.rest = [it]) ∨
    ∃ it rest, s.read table = (some it, { s with rest := rest }) ∧
      rest.length < s.rest.length ∧ items s.line s.rest = it :: items s.line rest := by
  cases hrest : s.rest with
  | nil =>
    refine .inl ⟨?_, by rw [items]⟩
    simp only [Scanner.read, hrest]
  | cons c cs =>
    rw [hrest] at h
    cases hopens : Trivia.opensBlock (c :: cs) with
    | true =>
      refine .inr (.inl ⟨_, ?_, items_of_opensBlock s.line h hopens⟩)
      simp only [Scanner.read, hrest, hopens, if_true]
    | false =>
      refine .inr (.inr ⟨_, _, read_eq_item hrest hopens hpending, ?_, items_of_item s.line h hopens⟩)
      exact Nat.lt_succ_of_le (length_item_le s.line c cs)

/-- The items of a scan from any place, behind those collected. -/
theorem drainOnto_eq_items (s : Scanner) (hpending : s.pending = none) (hhalted : s.halted = false)
    (collected : List Item) :
    (s.drainOnto table collected).1 = collected.reverse ++ items s.line s.rest := by
  -- on the length of the text: a call may drop any amount of it
  induction hn : s.rest.length using Nat.strongRecOn generalizing s collected with
  | ind n ih =>
    have hnext : s.next table = s.skipTrivia.read table := by
      rw [Scanner.next, hpending]
      simp only [hhalted, Bool.false_eq_true, if_false]
    have hitems : items s.line s.rest = items s.skipTrivia.line s.skipTrivia.rest :=
      (items_skip s.line s.rest).symm
    have hshort : s.skipTrivia.rest.length ≤ s.rest.length := Trivia.length_skip_le s.line s.rest
    rcases read_cases s.skipTrivia hpending (length?_skip s.line s.rest) with
      ⟨hread, hend⟩ | ⟨it, hread, hend⟩ | ⟨it, rest, hread, hlt, hstep⟩
    · rw [Scanner.drainOnto_of_none (hnext.trans hread), hitems, hend, List.append_nil]
    · have hdone := Scanner.drainOnto_of_halted (d := table)
        (s := { s.skipTrivia with halted := true }) hpending rfl (it :: collected)
      rw [Scanner.drainOnto_of_some (hnext.trans hread), hitems, hend, hdone, List.reverse_cons]
    · rw [Scanner.drainOnto_of_some (hnext.trans hread), hitems, hstep]
      have hrest := ih rest.length (by omega) { s.skipTrivia with rest := rest } hpending hhalted
        (it :: collected) rfl
      rw [hrest, List.reverse_cons, List.append_assoc, List.singleton_append]

/-- The table-driven scan of a source yields the items of the direct lexer. The
table of FOS always exists, no scan enters a missing state, and every decimal that
the direct lexer reads is a number, so it is never left without digits. -/
theorem scan_eq_items : lexicon.table? = some table ∧
    (∀ source : String,
      (Scanner.ofText source).drain? table = some ((Scanner.ofText source).drain table) ∧
      table.scan source = items 1 source.toList) ∧
    ∀ u, (decimal? u).all (fun found => (Decimal.round? found.1 5).isSome) = true := by
  have hclosed : table.Closed := lexicon.table_closed
  refine ⟨declares_lexicon.realizes.table?_eq, fun source => ⟨?_, ?_⟩, fun u => ?_⟩
  · exact Scanner.drain?_eq_drain hclosed _
  · exact drainOnto_eq_items (Scanner.ofText source) rfl rfl []
  · cases h : decimal? u with
    | none => rfl
    | some found => exact isSome_round?_of_decimal? h

/-- A run that only begins with digits is no decimal, and a keyword that goes on is
none. -/
example : items 1 "12ab.5 INTs".toList =
    [.diagnostic (.invalidIdentifier 1 "12ab"), .diagnostic (.unrecognizedSymbol 1 '.'),
      .token ⟨"int_literal", "5", 1⟩, .diagnostic (.invalidIdentifier 1 "INTs")] := by
  decide +kernel

end Munch.Fos
