import Munch.Proofs.Decimal
import Munch.Proofs.Fos.Words
import Munch.Proofs.Scan.MaximalMunch

/-!
# One lexeme of FOS

What the search for the longest match finds at the beginning of a text is the
longest word there (`munch_of_isLongestWord`), and the direct lexer reads that
word too. The first character decides which words can begin the text; among
decimals and runs the longest one is settled by where the run of letters and
digits ends.
-/

namespace Munch.Fos

open Reference

variable {u v rest : List Char}

/-! ## Longest words -/

/-- A word that the text begins with, and there is no longer one. -/
structure IsLongestWord (u v : List Char) : Prop where
  is_front : v <+: u
  word : IsWord v
  longest : ∀ v', v' <+: u → IsWord v' → v'.length ≤ v.length

theorem IsWord.ofChars_eq (h : IsWord v) : Bytes.ofChars v = v.map Bytes.ofChar := by
  apply Bytes.ofChars_of_ascii
  intro c hc
  have := h.printable c hc
  omega

theorem IsWord.candidate (h : IsWord v) (hv : v <+: u) :
    Candidate rules u (Bytes.ofChars v) := by
  refine ⟨fun hnil => h.ne_nil (Bytes.ofChars_eq_nil_iff.mp hnil), ?_, ?_,
    exists_rule_iff.mpr h⟩
  · obtain ⟨rest, rfl⟩ := hv
    rw [Bytes.ofChars_append]
    exact List.prefix_append _ _
  · intro b hb
    rw [h.ofChars_eq, List.mem_map] at hb
    obtain ⟨c, hc, rfl⟩ := hb
    have hprintable := h.printable c hc
    rw [Bytes.toNat_ofChar (by omega)]
    exact hprintable

theorem exists_word_of_candidate {p : List UInt8} (h : Candidate rules u p) :
    ∃ v, v <+: u ∧ IsWord v ∧ p = Bytes.ofChars v := by
  have hascii : ∀ b ∈ p, b.toNat ≤ 127 := by
    intro b hb
    have := h.printable b hb
    omega
  obtain ⟨v, hv, rfl⟩ := Bytes.exists_prefix_of_ascii h.is_front hascii
  exact ⟨v, hv, exists_rule_iff.mp h.has_rule, rfl⟩

theorem IsLongestWord.toLongest (h : IsLongestWord u v) : Longest rules u v := by
  refine ⟨h.word.candidate h.is_front, fun p hp => ?_⟩
  obtain ⟨v', hv', hword, rfl⟩ := exists_word_of_candidate hp
  rw [hword.ofChars_eq, h.word.ofChars_eq, List.length_map, List.length_map]
  exact h.longest v' hv' hword

/-- The search finds the longest word. -/
theorem munch_of_isLongestWord (h : IsLongestWord u v) :
    ∃ j rule, table.munch u = some (v.length, ⟨rule.name, j + 1⟩) ∧
      FirstRule rules (Bytes.ofChars v) j rule := by
  rcases declares_lexicon.realizes.munch_cases u with
    ⟨_, hnone⟩ | ⟨v', j, rule, _, hmunch, hlongest, hfirst⟩
  · exact absurd (h.word.candidate h.is_front) (hnone _)
  · obtain rfl := hlongest.unique h.toLongest
    exact ⟨j, rule, hmunch, hfirst⟩

theorem munch_of_no_word (h : ∀ v, v <+: u → ¬IsWord v) : table.munch u = none := by
  rcases declares_lexicon.realizes.munch_cases u with ⟨hmunch, _⟩ | ⟨v, _, _, _, _, hlongest, _⟩
  · exact hmunch
  · obtain ⟨v', hv', hword, _⟩ := exists_word_of_candidate hlongest.candidate
    exact absurd hword (h v' hv')

/-! ## Strings and decimals read directly -/

theorem string?_append (h : IsString v) (rest : List Char) :
    string? (v ++ rest) = some (v, rest) := by
  obtain ⟨body, rfl, hbody⟩ := h
  obtain ⟨htake, hdrop⟩ := split_at_end hbody (show isQuotable '"' = false by decide) rest
  have hsplit : '"' :: (body ++ ['"']) ++ rest = '"' :: (body ++ '"' :: rest) := by simp
  rw [hsplit, string?, htake, hdrop]
  rfl

theorem isString_of_string? (h : string? u = some (v, rest)) : IsString v := by
  unfold string? at h
  split at h
  · rename_i cs
    split at h
    · obtain ⟨rfl, rfl⟩ := Prod.mk.inj (Option.some.inj h)
      exact ⟨cs.takeWhile isQuotable, rfl, fun c hc => List.mem_takeWhile_imp hc⟩
    · cases h
  · cases h

/-- Two strings that a text begins with are the same. -/
theorem IsString.unique {v' : List Char} (h : IsString v) (h' : IsString v') (hv : v <+: u)
    (hv' : v' <+: u) : v = v' := by
  obtain ⟨rest, rfl⟩ := hv
  obtain ⟨rest', heq⟩ := hv'
  have hsame := string?_append h' rest'
  rw [heq, string?_append h] at hsame
  exact (Prod.mk.inj (Option.some.inj hsame)).1

theorem isAlphanum_of_isDigit {c : Char} (h : c.isDigit = true) : c.isAlphanum = true := by
  rw [Char.isAlphanum, h, Bool.or_true]

/-- Of the decimals that a text begins with, the direct lexer reads the longest. -/
theorem decimal?_of_isDecimal (h : IsDecimal v) (hv : v <+: u) :
    ∃ v' rest, decimal? u = some (v', rest) ∧ v.length ≤ v'.length := by
  obtain ⟨whole, fraction, rfl, ⟨_, hwhole⟩, hne, hfraction⟩ := h
  obtain ⟨rest, rfl⟩ := hv
  rw [List.append_assoc, List.cons_append]
  obtain ⟨htake, hdrop⟩ := split_at_end (fun c hc => isAlphanum_of_isDigit (hwhole c hc))
    (show Char.isAlphanum '.' = false by decide) (fraction ++ rest)
  have hlen := length_le_takeWhile (List.prefix_append fraction rest) hfraction
  have hne' : (fraction ++ rest).takeWhile Char.isDigit ≠ [] := by
    intro hnil
    rw [hnil] at hlen
    exact hne (List.length_eq_zero_iff.mp (Nat.le_zero.mp hlen))
  refine ⟨whole ++ '.' :: (fraction ++ rest).takeWhile Char.isDigit,
    (fraction ++ rest).dropWhile Char.isDigit, ?_, ?_⟩
  · simp only [decimal?, htake, hdrop]
    rw [if_pos ⟨List.all_eq_true.mpr hwhole, hne'⟩]
  · simp only [List.length_append, List.length_cons]
    omega

/-- What the direct lexer reads as a decimal. -/
theorem of_decimal? (h : decimal? u = some (v, rest)) :
    ∃ whole fraction, v = whole ++ '.' :: fraction ∧ whole = u.takeWhile Char.isAlphanum ∧
      (∀ c ∈ whole, c.isDigit = true) ∧ fraction ≠ [] ∧ ∀ c ∈ fraction, c.isDigit = true := by
  unfold decimal? at h
  simp only at h
  split at h
  · split at h
    · rename_i tail _ hcond
      obtain ⟨rfl, rfl⟩ := Prod.mk.inj (Option.some.inj h)
      exact ⟨_, _, rfl, rfl, List.all_eq_true.mp hcond.1, hcond.2,
        fun c hc => List.mem_takeWhile_imp hc⟩
    · cases h
  · cases h

/-! ## Longest words by their first character -/

variable {c : Char} {cs : List Char}

theorem isLongestWord_of_string? (h : string? u = some (v, rest)) : IsLongestWord u v := by
  have hv := isString_of_string? h
  have hfront : v <+: u := ⟨rest, (append_of_string? h).1⟩
  refine ⟨hfront, .inl hv, fun v' hv' hword => ?_⟩
  obtain ⟨body, rfl, hbody⟩ := hv
  cases v' with
  | nil => exact Nat.zero_le _
  | cons d v' =>
    -- another word begins with a quote, too
    obtain ⟨rest', rfl⟩ := hfront
    obtain rfl : d = '"' := (List.cons_prefix_cons.mp hv').1
    have hquote : Char.isAlphanum '"' = false := by decide
    rcases hword with hs | hd | ho | hr
    · rw [hs.unique ⟨body, rfl, hbody⟩ hv' (List.prefix_append _ _)]
    · rw [hd.head] at hquote
      cases hquote
    · exact absurd rfl ho.head.2.2
    · rw [hr.head] at hquote
      cases hquote

/-- A word that begins with a letter or digit is a decimal or a run. -/
theorem IsWord.of_alphanum (h : IsWord v) (hv : v <+: c :: cs) (hc : c.isAlphanum = true) :
    IsDecimal v ∨ IsRun v := by
  cases v with
  | nil => exact absurd rfl h.ne_nil
  | cons d v =>
    obtain rfl := (List.cons_prefix_cons.mp hv).1
    rcases h with hs | hd | ho | hr
    · rw [hs.head] at hc
      exact absurd hc (by decide)
    · exact .inl hd
    · rw [ho.head.2.1] at hc
      cases hc
    · exact .inr hr

theorem isLongestWord_of_decimal? (hc : c.isAlphanum = true)
    (h : decimal? (c :: cs) = some (v, rest)) : IsDecimal v ∧ IsLongestWord (c :: cs) v := by
  obtain ⟨whole, fraction, rfl, hwhole, hdigits, hne, hfraction⟩ := of_decimal? h
  have hwhole' : whole ≠ [] := by
    rw [hwhole, List.takeWhile_cons_of_pos hc]
    exact List.cons_ne_nil _ _
  have hdecimal : IsDecimal (whole ++ '.' :: fraction) :=
    ⟨whole, fraction, rfl, ⟨hwhole', hdigits⟩, hne, hfraction⟩
  refine ⟨hdecimal, ⟨rest, (append_of_decimal? h).1⟩, .inr (.inl hdecimal), ?_⟩
  intro v' hv' hword
  -- another decimal is no longer, and a run ends at the point
  rcases hword.of_alphanum hv' hc with hd | hr
  · obtain ⟨w, rest', hsome, hlen⟩ := decimal?_of_isDecimal hd hv'
    rw [h] at hsome
    obtain ⟨rfl, _⟩ := Prod.mk.inj (Option.some.inj hsome)
    exact hlen
  · have hlen := length_le_takeWhile hv' hr.2
    rw [← hwhole] at hlen
    rw [List.length_append]
    omega

theorem isLongestWord_run (hc : c.isAlphanum = true) (h : decimal? (c :: cs) = none) :
    IsRun ((c :: cs).takeWhile Char.isAlphanum) ∧
      IsLongestWord (c :: cs) ((c :: cs).takeWhile Char.isAlphanum) := by
  have hrun : IsRun ((c :: cs).takeWhile Char.isAlphanum) := by
    refine ⟨?_, fun d hd => List.mem_takeWhile_imp hd⟩
    rw [List.takeWhile_cons_of_pos hc]
    exact List.cons_ne_nil _ _
  refine ⟨hrun, List.takeWhile_prefix _, .inr (.inr (.inr hrun)), ?_⟩
  intro v' hv' hword
  rcases hword.of_alphanum hv' hc with hd | hr
  · obtain ⟨w, rest', hsome, _⟩ := decimal?_of_isDecimal hd hv'
    rw [h] at hsome
    cases hsome
  · exact length_le_takeWhile hv' hr.2

/-- Without string, a word that begins with no letter or digit is an operator. -/
theorem IsWord.of_symbol (h : IsWord v) (hv : v <+: c :: cs) (hc : c.isAlphanum = false)
    (hstring : string? (c :: cs) = none) : v = [c] ∧ IsOperator [c] := by
  cases v with
  | nil => exact absurd rfl h.ne_nil
  | cons d v =>
    obtain rfl := (List.cons_prefix_cons.mp hv).1
    rcases h with hs | hd | ho | hr
    · obtain ⟨rest, heq⟩ := hv
      rw [← heq, string?_append hs] at hstring
      cases hstring
    · rw [hd.head] at hc
      cases hc
    · obtain rfl := ho.head.1
      exact ⟨rfl, ho⟩
    · rw [hr.head] at hc
      cases hc

end Munch.Fos
