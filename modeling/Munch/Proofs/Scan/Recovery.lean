import Munch.Proofs.Scan.Newline

/-!
# What follows a diagnostic

The result of a call and the scanner that the call leaves go together: behind the
end, and behind a comment without end, the scanner is done; behind a decimal literal
that is no number it owes that literal as it stands in the source; otherwise it owes
nothing. `Scanner.Leaves` says so, and it holds of every call (`Scanner.leaves_next`).
So in any sequence of calls one result tells what the next one is
(`Scanner.call_of_done`, `Scanner.call_succ_of_owed`), and the items of a whole scan
are the results of its calls (`Scanner.getElem?_drain`).
-/

namespace Munch

variable {d : Dfa} {s s' : Scanner}

namespace Scanner

/-! ## One call -/

/-- Nothing is owed, and nothing will come. -/
def IsDone (s : Scanner) : Prop :=
  s.pending = none ∧ s.halted = true

/-- What a call with the given result leaves. -/
def Leaves : Option Item → Scanner → Prop
  | none, s => s.IsDone
  | some (.diagnostic (.unterminatedComment _)), s => s.IsDone
  | some (.diagnostic (.invalidDecimalLiteral line lexeme)), s =>
    s.pending = some ⟨Kind.decimalLiteral, lexeme, line⟩
  | some _, s => s.pending = none

/-- A lexeme is owed if it is reported as a decimal literal, and not otherwise. It never
ends the scan. -/
theorem leaves_classify (kind : String) (lexeme : List Char) (line : Nat) (s : Scanner) :
    { s with pending := (classify kind lexeme line).2 : Scanner }.Leaves
      (some (classify kind lexeme line).1) := by
  unfold classify
  simp only
  split
  · rename_i hkind
    rw [hkind]
    split <;> rfl
  · split
    · split
      · rfl
      · split <;> rfl
    · rfl

theorem leaves_read (hpending : s.pending = none) : (s.read d).2.Leaves (s.read d).1 := by
  unfold read
  split
  · exact ⟨hpending, rfl⟩
  · split
    · exact ⟨hpending, rfl⟩
    · split
      · exact hpending
      · rename_i k tag _
        exact leaves_classify _ _ _ { s with rest := s.rest.drop k }

/-- Every call leaves what its result says. -/
theorem leaves_next (d : Dfa) (s : Scanner) : (s.next d).2.Leaves (s.next d).1 := by
  unfold next
  split
  · rfl
  · rename_i hpending
    split
    · rename_i hhalted
      exact ⟨hpending, hhalted⟩
    · exact leaves_read hpending

theorem IsDone.next (h : s.IsDone) : s.next d = (none, s) := by
  rw [Scanner.next, h.1]
  simp only [h.2, if_true]

/-! ## A sequence of calls -/

/-- Call number `i` of those that are made one after the other, counted from zero. -/
def call (d : Dfa) : (i : Nat) → Scanner → Option Item × Scanner
  | 0, s => s.next d
  | i + 1, s => (s.next d).2.call d i

/-- The calls behind call number `i` are those of the scanner that it leaves. -/
theorem call_add (i j : Nat) (s : Scanner) :
    s.call d (i + 1 + j) = (s.call d i).2.call d j := by
  induction i generalizing s with
  | zero => rw [Nat.add_comm, Nat.add_comm 0 1, Nat.add_zero]; rfl
  | succ i ih => rw [Nat.add_right_comm, call, ih, call]

theorem leaves_call {i : Nat} {result : Option Item} (h : (s.call d i).1 = result) :
    (s.call d i).2.Leaves result := by
  subst h
  induction i generalizing s with
  | zero => exact leaves_next d s
  | succ i ih => exact ih

theorem IsDone.call (h : s.IsDone) (i : Nat) : s.call d i = (none, s) := by
  induction i with
  | zero => exact h.next
  | succ i ih => rw [Scanner.call, h.next, ih]

/-- Behind a call that leaves the scanner done nothing comes, and nothing changes. -/
theorem call_of_done {i j : Nat} (h : (s.call d i).2.IsDone) (hlt : i < j) :
    s.call d j = (none, (s.call d i).2) := by
  obtain ⟨k, rfl⟩ := Nat.exists_eq_add_of_lt hlt
  rw [Nat.add_right_comm, call_add, h.call]

/-- Nothing comes behind a comment without end. -/
theorem call_of_unterminated {i j line : Nat}
    (h : (s.call d i).1 = some (.diagnostic (.unterminatedComment line))) (hlt : i < j) :
    (s.call d j).1 = none := by
  have hdone : (s.call d i).2.IsDone := leaves_call h
  rw [call_of_done hdone hlt]

/-- What a call leaves owed is the result of the next one. -/
theorem call_succ_of_owed {i : Nat} {t : Token} (h : (s.call d i).2.pending = some t) :
    (s.call d (i + 1)).1 = some (.token t) := by
  rw [← Nat.add_zero (i + 1), call_add, call, next, h]

theorem call?_of_closed (hd : d.Closed) (i : Nat) (s : Scanner) :
    ((s.after? d i).bind fun s' => s'.next? d) = some (s.call d i) := by
  induction i generalizing s with
  | zero => exact next?_of_closed hd s
  | succ i ih =>
    rw [after?, next?_of_closed hd, Option.bind_some, ih]
    rfl

/-! ## The items of a scan are the results of its calls -/

theorem getElem?_drain (d : Dfa) (i : Nat) (s : Scanner) :
    (s.drain d).1[i]? = (s.call d i).1 := by
  induction i generalizing s with
  | zero =>
    rw [call]
    cases hnext : s.next d with
    | mk item s' =>
      cases item with
      | none => rw [drain_of_none hnext]; rfl
      | some item => rw [drain_of_some hnext]; rfl
  | succ i ih =>
    rw [call]
    cases hnext : s.next d with
    | mk item s' =>
      cases item with
      | none =>
        have hleaves := leaves_next d s
        rw [hnext] at hleaves
        have hdone : s'.IsDone := hleaves
        rw [drain_of_none hnext, hdone.call]
        rfl
      | some item => rw [drain_of_some hnext, List.getElem?_cons_succ, ih]

end Scanner

/-! ## A whole scan -/

/-- A comment without end is the last item of a scan. -/
theorem Dfa.getLast?_scan {source : String} {line : Nat}
    (h : .diagnostic (.unterminatedComment line) ∈ d.scan source) :
    (d.scan source).getLast? = some (.diagnostic (.unterminatedComment line)) := by
  obtain ⟨i, hi⟩ := List.mem_iff_getElem?.mp h
  have hcall : ((Scanner.ofText source).call d i).1 =
      some (.diagnostic (.unterminatedComment line)) := by
    rw [← Scanner.getElem?_drain]
    exact hi
  -- the next call has no result, so the scan has no item there
  have hnone : (d.scan source)[i + 1]? = none := by
    rw [scan, Scanner.getElem?_drain]
    exact Scanner.call_of_unterminated hcall (Nat.lt_succ_self i)
  have hlength : (d.scan source).length = i + 1 := by
    have hlt := (List.getElem?_eq_some_iff.mp hi).1
    have hle := List.getElem?_eq_none_iff.mp hnone
    omega
  rw [List.getLast?_eq_getElem?, hlength]
  exact hi

/-- A scan halts exactly if its last diagnostic is a comment without end. -/
theorem Dfa.halted_tokenize_iff (d : Dfa) (source : String) :
    (d.tokenize source).halted = true ↔
      ∃ line, (d.tokenize source).errors.getLast? = some (.unterminatedComment line) := by
  constructor
  · intro h
    obtain ⟨e, he, hfatal⟩ := List.any_eq_true.mp h
    obtain ⟨item, hitem, hdiag⟩ := List.mem_filterMap.mp he
    cases item with
    | token t => cases hdiag
    | diagnostic e' =>
      obtain rfl : e' = e := Option.some.inj hdiag
      cases e' with
      | unterminatedComment line =>
        obtain ⟨front, hfront⟩ := List.getLast?_eq_some_iff.mp (getLast?_scan hitem)
        refine ⟨line, ?_⟩
        simp only [tokenize, ScanResult.ofItems, hfront, List.filterMap_append]
        exact List.getLast?_concat
      | unrecognizedSymbol => cases hfatal
      | invalidDecimalLiteral => cases hfatal
      | invalidIdentifier => cases hfatal
  · rintro ⟨line, hlast⟩
    exact List.any_eq_true.mpr ⟨_, List.mem_of_getLast? hlast, rfl⟩

/-- The results of repeated calls over a source. Behind a comment without end there are
none, so there is at most one such comment. A decimal literal that is no number is
followed by the token of that literal. Behind the end there is nothing, and the line
stays. The scan of the source has the results as its items, and it halts exactly if
the last diagnostic is a comment without end. -/
theorem Dfa.scan_recovers (hd : d.Closed) (source : String) :
    ∃ (run : Nat → Option Item × Scanner) (out : ScanResult),
      (∀ i, (((Scanner.ofText source).after? d i).bind fun s => s.next? d) = some (run i)) ∧
      (∀ i line, (run i).1 = some (.diagnostic (.unterminatedComment line)) →
        (∀ j, i < j → (run j).1 = none) ∧
        ∀ j line', (run j).1 = some (.diagnostic (.unterminatedComment line')) → j = i) ∧
      (∀ i line lexeme, (run i).1 = some (.diagnostic (.invalidDecimalLiteral line lexeme)) →
        (run (i + 1)).1 = some (.token ⟨Kind.decimalLiteral, lexeme, line⟩)) ∧
      (∀ i, (run i).1 = none →
        ∀ j, i < j → (run j).1 = none ∧ (run j).2.line = (run i).2.line) ∧
      d.tokenize? source = some out ∧
      (∃ items, out = .ofItems items ∧ ∀ i, items[i]? = (run i).1) ∧
      (out.halted = true ↔ ∃ line, out.errors.getLast? = some (.unterminatedComment line)) := by
  let s := Scanner.ofText source
  refine ⟨fun i => s.call d i, d.tokenize source, fun i => Scanner.call?_of_closed hd i s, ?_, ?_,
    ?_, tokenize?_of_closed hd source, ?_, d.halted_tokenize_iff source⟩
  · intro i line hi
    refine ⟨fun j => Scanner.call_of_unterminated hi, fun j line' hj => ?_⟩
    rcases Nat.lt_trichotomy j i with hlt | heq | hlt
    · have hnone := Scanner.call_of_unterminated hj hlt
      rw [hi] at hnone
      cases hnone
    · exact heq
    · have hnone := Scanner.call_of_unterminated hi hlt
      rw [hj] at hnone
      cases hnone
  · intro i line lexeme hi
    have howed : (s.call d i).2.pending = some ⟨Kind.decimalLiteral, lexeme, line⟩ :=
      Scanner.leaves_call hi
    exact Scanner.call_succ_of_owed howed
  · intro i hi j hj
    have hdone : (s.call d i).2.IsDone := Scanner.leaves_call hi
    simp only [Scanner.call_of_done hdone hj, and_self]
  · exact ⟨d.scan source, rfl, fun i => Scanner.getElem?_drain d i s⟩

/-- A letter is reported and then owed, and the comment behind it has no end. -/
theorem Dfa.scan_recovers_mislabelled : mislabelled.Closed ∧
    (∃ out, mislabelled.tokenize? "a\n/*?" = some out ∧ out.halted = true) ∧
    let result? i := ((Scanner.ofText "a\n/*?").after? mislabelled i).bind fun s =>
      (s.next? mislabelled).map Prod.fst
    result? 0 = some (some (.diagnostic (.invalidDecimalLiteral 1 "a"))) ∧
      result? 1 = some (some (.token ⟨Kind.decimalLiteral, "a", 1⟩)) ∧
      result? 2 = some (some (.diagnostic (.unterminatedComment 2))) ∧
      ∀ j, 2 < j → result? j = some none := by
  have hclosed : mislabelled.Closed := by decide +kernel
  have htokenize : mislabelled.tokenize? "a\n/*?" = some ⟨[⟨Kind.decimalLiteral, "a", 1⟩],
      [.invalidDecimalLiteral 1 "a", .unterminatedComment 2]⟩ := by decide +kernel
  obtain ⟨run, out, hrun, hfatal, howed, _, hout, _, hhalted⟩ := scan_recovers hclosed "a\n/*?"
  obtain rfl := Option.some.inj (htokenize.symm.trans hout)
  refine ⟨hclosed, ⟨_, hout, hhalted.mpr ⟨2, rfl⟩⟩, ?_⟩
  intro result?
  have hresult : ∀ i, result? i = some (run i).1 := by
    intro i
    rw [← Option.map_some (f := Prod.fst), ← hrun i, Option.map_bind]
    rfl
  have hfirst : result? 0 = some (some (.diagnostic (.invalidDecimalLiteral 1 "a"))) := by
    decide +kernel
  have hthird : result? 2 = some (some (.diagnostic (.unterminatedComment 2))) := by
    decide +kernel
  have hsecond := howed 0 1 "a" (Option.some.inj ((hresult 0).symm.trans hfirst))
  have hrest := (hfatal 2 2 (Option.some.inj ((hresult 2).symm.trans hthird))).1
  exact ⟨hfirst, (hresult 1).trans (congrArg some hsecond), hthird,
    fun j hj => (hresult j).trans (congrArg some (hrest j hj))⟩

end Munch
