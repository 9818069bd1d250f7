import Munch.Proofs.Scan.Partition

/-!
# Scanning line by line

A newline ends whatever stands before it: no lexeme goes on beyond it, a line
comment stops in front of it, and a block comment that has ended is not changed
by what follows. So a split text stays split when a newline and more text are
appended (`Splits.append_newline`). The text behind is scanned as if it stood
alone, on lines that are later by as many as there are before
(`itemsAfter_append_left`).
-/

namespace Munch

variable {d : Dfa} {segs : List Segment} {a b u tail : List Char}

/-! ## What a newline cannot change -/

/-- A prefix of a text with a newline behind it is a prefix of the text, or has
the newline in it. -/
theorem prefix_or_mem_of_prefix_newline {v : List Char} (h : v <+: u ++ '\n' :: b) :
    v <+: u ∨ '\n' ∈ v := by
  have hu : u <+: u ++ '\n' :: b := List.prefix_append _ _
  by_cases hlen : v.length ≤ u.length
  · exact .inl (List.prefix_of_prefix_length_le h hu hlen)
  · have hline : u ++ ['\n'] <+: u ++ '\n' :: b :=
      ⟨b, by rw [List.append_assoc, List.singleton_append]⟩
    have hv : u ++ ['\n'] <+: v := by
      apply List.prefix_of_prefix_length_le hline h
      rw [List.length_append, List.length_singleton]
      omega
    exact .inr (hv.subset (List.mem_append_right _ (List.mem_singleton_self _)))

/-- No verdict is given to a text with a newline in it, so none is added behind one. -/
theorem Dfa.SilentBeyond.append_newline {id k : Nat} (h : d.SilentBeyond id u k) (b : List Char) :
    d.SilentBeyond id (u ++ '\n' :: b) k := by
  intro v hv hlen
  rcases prefix_or_mem_of_prefix_newline hv with hv | hmem
  · exact h v hv hlen
  · cases hverdict : d.verdictFrom id v with
    | none => rfl
    | some tag => exact absurd (printable_of_verdictFrom hverdict '\n' hmem) (by decide)

theorem IsBare.append_newline (h : IsBare u) (hu : u ≠ []) (b : List Char) :
    IsBare (u ++ '\n' :: b) := by
  have hmark : ∀ mark : List Char, '\n' ∉ mark → ¬mark <+: u → ¬mark <+: u ++ '\n' :: b := by
    intro mark hmark hno hfront
    rcases prefix_or_mem_of_prefix_newline hfront with hfront | hmem
    · exact hno hfront
    · exact hmark hmem
  refine ⟨?_, hmark _ (by decide) h.block, hmark _ (by decide) h.line⟩
  intro c cs heq
  cases u with
  | nil => exact absurd rfl hu
  | cons c' u =>
    obtain ⟨rfl, _⟩ := List.cons.inj heq
    exact h.blank c' u rfl

/-- A segment stays what it is when a newline and more text are appended. -/
theorem Segment.Fits.append_newline {seg : Segment} {rest : List Char} (h : seg.Fits d rest)
    (b : List Char) : seg.Fits d (rest ++ '\n' :: b) := by
  cases seg with
  | blank c => exact h
  | block body => exact h
  | line body =>
    refine ⟨h.1, .inr ?_⟩
    rcases h.2 with rfl | ⟨more, rfl⟩
    · exact ⟨b, rfl⟩
    · exact ⟨more ++ '\n' :: b, rfl⟩
  | stray c => exact ⟨h.1.append_newline (List.cons_ne_nil _ _) b, h.2.append_newline b⟩
  | lexeme chars tag =>
    obtain ⟨hne, hprintable, hbare, hverdict, hsilent⟩ := h
    have happend : chars ++ rest ≠ [] := fun hnil => hne (List.append_eq_nil_iff.mp hnil).1
    have hbare' := hbare.append_newline happend b
    have hsilent' := hsilent.append_newline b
    rw [List.append_assoc] at hbare' hsilent'
    exact ⟨hne, hprintable, hbare', hverdict, hsilent'⟩

theorem Splits.append_newline (h : Splits d u segs tail) (htail : tail = []) (b : List Char) :
    Splits d (u ++ '\n' :: b) segs ('\n' :: b) := by
  induction h with
  | done u =>
    rw [htail]
    exact .done _
  | next hfits _ ih =>
    rw [List.append_assoc]
    exact .next (hfits.append_newline b) (ih htail)

/-! ## Later lines -/

/-- The token some lines later. -/
def Token.later (k : Nat) (t : Token) : Token :=
  { t with line := t.line + k }

/-- The diagnostic some lines later. -/
def Diagnostic.later (k : Nat) : Diagnostic → Diagnostic
  | unterminatedComment line => unterminatedComment (line + k)
  | unrecognizedSymbol line symbol => unrecognizedSymbol (line + k) symbol
  | invalidDecimalLiteral line lexeme => invalidDecimalLiteral (line + k) lexeme
  | invalidIdentifier line lexeme => invalidIdentifier (line + k) lexeme

/-- The item some lines later. -/
def Item.later (k : Nat) : Item → Item
  | token t => token (t.later k)
  | diagnostic e => diagnostic (e.later k)

/-- What a lexeme is does not depend on its line. -/
theorem classify_later (kind : String) (lexeme : List Char) (line k : Nat) :
    classify kind lexeme (line + k) =
      ((classify kind lexeme line).1.later k, (classify kind lexeme line).2.map (Token.later k)) := by
  unfold classify
  simp only
  split
  · split <;> rfl
  · split
    · split
      · rfl
      · split <;> rfl
    · rfl

theorem Segment.yields_later (seg : Segment) (line k : Nat) :
    seg.yields (line + k) = (seg.yields line).map (Item.later k) := by
  cases seg with
  | blank => rfl
  | block => rfl
  | line => rfl
  | stray => rfl
  | lexeme chars tag =>
    simp only [yields, classify_later, List.map_cons]
    cases (classify tag.token chars line).2 <;> rfl

theorem ending_later (line k : Nat) (tail : List Char) :
    ending (line + k) tail = (ending line tail).map (Item.later k) := by
  cases tail <;> rfl

/-- More text in front only makes the lines later. -/
theorem itemsAfter_append_left (front before : List Char) (segs : List Segment) :
    itemsAfter (front ++ before) segs =
      (itemsAfter before segs).map (Item.later (front.count '\n')) := by
  induction segs generalizing before with
  | nil => rfl
  | cons seg segs ih =>
    have hline : lineAfter (front ++ before) = lineAfter before + front.count '\n' := by
      simp only [lineAfter, List.count_append]
      omega
    rw [itemsAfter, itemsAfter, List.append_assoc, ih, hline, Segment.yields_later, List.map_append]

/-! ## Two scans in one -/

/-- The items of a split source. -/
theorem Dfa.scan_of_splits {source : String} (h : Splits d source.toList segs tail)
    (hend : tail = [] ∨ IsUnterminated tail) :
    d.scan source =
      itemsAfter [] segs ++ ending (lineAfter (segs.flatMap Segment.text)) tail := by
  have hline : (Scanner.ofText source).line = lineAfter [] := rfl
  obtain ⟨last, hdrain, _⟩ := Scanner.drainOnto_of_splits rfl rfl hline h hend []
  rw [scan, Scanner.drain, hdrain]
  rfl

/-- What stands behind a line that is split whole is scanned as if it stood alone. -/
theorem Dfa.scan_append_newline {a : String} (h : Splits d a.toList segs []) (b : String) :
    d.scan (a ++ "\n" ++ b) =
      d.scan a ++ (d.scan b).map (Item.later (1 + a.toList.count '\n')) := by
  obtain ⟨more, tail, hb, hend⟩ := exists_splits d b.toList
  have ha : a.toList = segs.flatMap Segment.text := by
    rw [h.eq_append, List.append_nil]
  have hblank : (Segment.blank '\n').Fits d b.toList := rfl
  have hwhole : Splits d (a ++ "\n" ++ b).toList (segs ++ .blank '\n' :: more) tail := by
    have hnewline : (a ++ "\n" ++ b).toList = a.toList ++ '\n' :: b.toList := by simp
    rw [hnewline]
    exact (h.append_newline rfl b.toList).append (.next hblank hb)
  -- the text in front of the second part ends with the newline
  have hfront : segs.flatMap Segment.text ++ ['\n'] = a.toList ++ ['\n'] ++ [] := by
    rw [ha, List.append_nil]
  have hcount : (a.toList ++ ['\n']).count '\n' = 1 + a.toList.count '\n' := by
    rw [List.count_append, List.count_singleton_self, Nat.add_comm]
  have hline : lineAfter ((segs ++ .blank '\n' :: more).flatMap Segment.text) =
      lineAfter (more.flatMap Segment.text) + (1 + a.toList.count '\n') := by
    rw [List.flatMap_append, List.flatMap_cons, ← ha, Segment.text, lineAfter_append, lineAfter,
      lineAfter, List.singleton_append, List.count_cons_self]
    omega
  rw [scan_of_splits hwhole hend, scan_of_splits h (.inl rfl), scan_of_splits hb hend,
    itemsAfter_append, itemsAfter, List.nil_append, Segment.text, hfront, itemsAfter_append_left,
    hcount, hline, ending_later, List.map_append]
  simp only [Segment.yields, ending, List.nil_append, List.append_nil, List.append_assoc]

theorem filterMap_token?_later (k : Nat) (items : List Item) :
    (items.map (Item.later k)).filterMap Item.token? =
      (items.filterMap Item.token?).map (Token.later k) := by
  rw [List.filterMap_map, List.map_filterMap]
  congr 1
  funext item
  cases item <;> rfl

theorem filterMap_diagnostic?_later (k : Nat) (items : List Item) :
    (items.map (Item.later k)).filterMap Item.diagnostic? =
      (items.filterMap Item.diagnostic?).map (Diagnostic.later k) := by
  rw [List.filterMap_map, List.map_filterMap]
  congr 1
  funext item
  cases item <;> rfl

/-- A scan that does not halt leaves nothing. -/
theorem Splits.of_not_halted {source : String} (h : Splits d source.toList segs tail)
    (hend : tail = [] ∨ IsUnterminated tail) (hhalted : (d.tokenize source).halted = false) :
    Splits d source.toList segs [] := by
  rcases hend with rfl | hend
  · exact h
  · have hfatal : (d.tokenize source).halted = true := by
      rw [Dfa.tokenize, Dfa.scan_of_splits h (.inr hend), hend.ending, ScanResult.halted,
        List.any_eq_true]
      refine ⟨.unterminatedComment (lineAfter (segs.flatMap Segment.text)), ?_, rfl⟩
      exact List.mem_filterMap.mpr ⟨_, List.mem_append_right _ (List.mem_singleton_self _), rfl⟩
    rw [hfatal] at hhalted
    cases hhalted

theorem Dfa.tokenize?_of_closed (hd : d.Closed) (source : String) :
    d.tokenize? source = some (d.tokenize source) := by
  rw [tokenize?, Scanner.drain?_eq_drain hd]
  rfl

/-- The tokens and diagnostics of a text up to a newline are those of that text
alone, unless its scan halts, and what follows is scanned as if it stood alone, on
later lines. -/
theorem Dfa.tokenize?_append_newline (hd : d.Closed) (a b : String) :
    ∃ first second whole, d.tokenize? a = some first ∧ d.tokenize? b = some second ∧
      d.tokenize? (a ++ "\n" ++ b) = some whole ∧
      (first.halted = false →
        whole.tokens =
          first.tokens ++ second.tokens.map (Token.later (1 + a.toList.count '\n')) ∧
        whole.errors =
          first.errors ++ second.errors.map (Diagnostic.later (1 + a.toList.count '\n'))) := by
  refine ⟨_, _, _, tokenize?_of_closed hd a, tokenize?_of_closed hd b, tokenize?_of_closed hd _, ?_⟩
  intro hhalted
  obtain ⟨segs, tail, hsplits, hend⟩ := exists_splits d a.toList
  have hscan := scan_append_newline (hsplits.of_not_halted hend hhalted) b
  simp only [tokenize, ScanResult.ofItems, hscan, List.filterMap_append, filterMap_token?_later,
    filterMap_diagnostic?_later, and_self]

/-- The comment ends with its line, and what follows is on the next one. -/
theorem Dfa.tokenize?_append_newline_mislabelled : mislabelled.Closed ∧
    mislabelled.tokenize? ("a//" ++ "\n" ++ "a?") = some
      { tokens := [⟨Kind.decimalLiteral, "a", 1⟩, ⟨Kind.decimalLiteral, "a", 2⟩]
        errors := [.invalidDecimalLiteral 1 "a", .invalidDecimalLiteral 2 "a",
          .unrecognizedSymbol 2 '?'] } := by
  have hclosed : mislabelled.Closed := by decide +kernel
  have hfirst : mislabelled.tokenize? "a//" = some
      ⟨[⟨Kind.decimalLiteral, "a", 1⟩], [.invalidDecimalLiteral 1 "a"]⟩ := by decide +kernel
  have hsecond : mislabelled.tokenize? "a?" = some
      ⟨[⟨Kind.decimalLiteral, "a", 1⟩],
        [.invalidDecimalLiteral 1 "a", .unrecognizedSymbol 1 '?']⟩ := by decide +kernel
  obtain ⟨first, second, ⟨tokens, errors⟩, ha, hb, hwhole, hparts⟩ :=
    tokenize?_append_newline hclosed "a//" "a?"
  obtain rfl := Option.some.inj (hfirst.symm.trans ha)
  obtain rfl := Option.some.inj (hsecond.symm.trans hb)
  obtain ⟨rfl, rfl⟩ := hparts rfl
  exact ⟨hclosed, hwhole⟩

end Munch
