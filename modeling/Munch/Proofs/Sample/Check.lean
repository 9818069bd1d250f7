import Munch.Proofs.Fos.Relex
import Munch.Sample.Check

/-!
# What a check finds

The lines of a scan never go back, whatever the table (`Dfa.pairwise_line_tokenize`),
collecting the tokens one by one comes to the tokens of the whole scan or to its first
diagnostic (`Scanner.collectOnto_eq`), and the lexemes of FOS are scanned to
themselves. So a check of FOS source finds nothing but diagnostics
(`Fos.check_of_no_errors`).
-/

namespace Munch

variable {segs : List Segment} {before : List Char} {item : Item}

/-! ## Lines -/

theorem lineAfter_le_of_mem_itemsAfter (h : item ∈ itemsAfter before segs) :
    lineAfter before ≤ item.line := by
  induction segs generalizing before with
  | nil => cases h
  | cons seg segs ih =>
    rcases List.mem_append.mp h with h | h
    · exact Nat.le_of_eq (Segment.line_of_mem_yields h).symm
    · have hle := ih h
      rw [lineAfter_append] at hle
      omega

theorem pairwise_line_itemsAfter (before : List Char) (segs : List Segment) :
    (itemsAfter before segs).Pairwise (fun a b => a.line ≤ b.line) := by
  induction segs generalizing before with
  | nil => exact List.Pairwise.nil
  | cons seg segs ih =>
    rw [itemsAfter, List.pairwise_append]
    refine ⟨?_, ih _, ?_⟩
    · -- a segment says all it has to say on its own line
      refine List.pairwise_of_forall_mem_list fun a ha b hb => ?_
      rw [Segment.line_of_mem_yields ha, Segment.line_of_mem_yields hb]
    · intro a ha b hb
      have hle := lineAfter_le_of_mem_itemsAfter hb
      rw [lineAfter_append] at hle
      rw [Segment.line_of_mem_yields ha]
      omega

/-- The tokens of a scan are in the order of their lines. -/
theorem Dfa.pairwise_line_tokenize (d : Dfa) (source : String) :
    (d.tokenize source).tokens.Pairwise (fun a b => a.line ≤ b.line) := by
  obtain ⟨segs, tail, hsplits, hend⟩ := exists_splits d source.toList
  have htokens : (d.tokenize source).tokens = (itemsAfter [] segs).filterMap Item.token? := by
    rw [tokenize, scan_of_splits hsplits hend]
    show List.filterMap _ (_ ++ _) = _
    rw [List.filterMap_append]
    cases tail <;> simp [ending, Item.token?]
  rw [htokens]
  refine (pairwise_line_itemsAfter [] segs).filterMap _ fun a b hab t ht t' ht' => ?_
  cases a with
  | diagnostic => cases ht
  | token =>
    cases b with
    | diagnostic => cases ht'
    | token =>
      obtain rfl := Option.some.inj ht
      obtain rfl := Option.some.inj ht'
      exact hab

theorem linesAscend_of_pairwise {tokens : List Token}
    (h : tokens.Pairwise (fun a b => a.line ≤ b.line)) : linesAscend tokens = true := by
  induction tokens with
  | nil => rfl
  | cons t tokens ih =>
    cases tokens with
    | nil => rfl
    | cons t' tokens =>
      have hrest := ih h.of_cons
      have hfirst : t.line ≤ t'.line := List.rel_of_pairwise_cons h List.mem_cons_self
      simp only [linesAscend, List.drop_succ_cons, List.drop_zero, List.zip_cons_cons,
        List.all_cons, decide_eq_true hfirst, Bool.true_and] at hrest ⊢
      exact hrest

/-! ## Collecting tokens -/

/-- Collecting comes to all tokens that are left, unless there is a diagnostic among the
items: then it comes to the first one. -/
theorem Scanner.collectOnto_eq (d : Dfa) (s : Scanner) (collected : List Token) :
    s.collectOnto d collected =
      match (s.drain d).1.filterMap Item.diagnostic? with
      | e :: _ => .error e
      | [] => .ok (collected.reverse ++ (s.drain d).1.filterMap Item.token?) := by
  fun_induction Scanner.collectOnto d s collected with
  | case1 s collected s' hnext =>
    rw [drain_of_none hnext, List.filterMap_nil, List.filterMap_nil, List.append_nil]
  | case2 s collected e s' hnext =>
    rw [drain_of_some hnext]
    rfl
  | case3 s collected t s' hnext ih =>
    rw [ih, drain_of_some hnext, List.reverse_cons, List.append_assoc]
    rfl

/-- The tokens are collected if there is no diagnostic. -/
theorem Dfa.collect_of_no_errors {d : Dfa} {source : String} (h : (d.tokenize source).errors = []) :
    d.collect source = .ok (d.tokenize source).tokens := by
  have herrors : ((Scanner.ofText source).drain d).1.filterMap Item.diagnostic? = [] := h
  rw [collect, Scanner.collectOnto_eq, herrors]
  rfl

/-! ## Checks of FOS source -/

namespace Fos

/-- A check finds nothing in a source without diagnostics. -/
theorem check_of_no_errors {source : String} (h : (table.tokenize source).errors = []) :
    table.check source = .ok (table.tokenize source).tokens.length := by
  have hlines := linesAscend_of_pairwise (table.pairwise_line_tokenize source)
  have hcollected : (table.collect source).mapError CheckFailure.lazyDiagnostic =
      pure (table.tokenize source).tokens := by
    rw [Dfa.collect_of_no_errors h]
    rfl
  simp only [Dfa.check, h, hcollected, pure_bind, hlines, relexes_tokens, Bool.not_true, ne_eq,
    not_true_eq_false, Bool.false_eq_true, if_false]
  rfl

end Fos

end Munch
