import Munch.Proofs.Scan.Drain
import Munch.Proofs.Scan.Segment

/-!
# A scan partitions its source

With any table whose edges lead to states, a scan goes over a source segment by
segment. One call of `next` steps over trivia and then over one segment more, or
finds the end (`Scanner.next_cases`). So a scanner always stands between two
segments and knows its line (`Scanner.Stands.next`), and a whole scan yields what
`itemsAfter` says about the segments (`Scanner.drainOnto_of_splits`).
-/

namespace Munch

variable {d : Dfa} {s : Scanner} {segs todo : List Segment} {tail before : List Char}

/-! ## The longest match by its verdict -/

namespace Dfa

theorem munch_eq_none {u : List Char} (h : d.SilentBeyond d.start u 0) : d.munch u = none := by
  rcases d.munch_cases u with ⟨hmunch, _⟩ | ⟨v, tag, hv, hne, _, hverdict, _⟩
  · exact hmunch
  · rw [verdict, h v hv (List.length_pos_iff.mpr hne)] at hverdict
    cases hverdict

theorem munch_eq_some {u v : List Char} {tag : Tag} (hv : v <+: u) (hne : v ≠ [])
    (hverdict : d.verdict v = some tag) (hsilent : d.SilentBeyond d.start u v.length) :
    d.munch u = some (v.length, tag) := by
  have hpos := List.length_pos_iff.mpr hne
  rcases d.munch_cases u with ⟨_, hsilent'⟩ | ⟨v', tag', hv', _, hmunch, hverdict', hsilent'⟩
  · rw [verdict, hsilent' v hv hpos] at hverdict
    cases hverdict
  · -- neither prefix is longer than the other, since both have a verdict
    have hle : v'.length ≤ v.length := by
      by_contra hlong
      rw [verdict, hsilent v' hv' (Nat.lt_of_not_le hlong)] at hverdict'
      cases hverdict'
    have hge : v.length ≤ v'.length := by
      by_contra hlong
      rw [verdict, hsilent' v hv (Nat.lt_of_not_le hlong)] at hverdict
      cases hverdict
    obtain rfl : v' = v :=
      (List.prefix_of_prefix_length_le hv' hv hle).eq_of_length (Nat.le_antisymm hle hge)
    rw [hverdict] at hverdict'
    rw [hmunch, Option.some.inj hverdict']

end Dfa

/-! ## One call -/

/-- Outside of trivia there is no newline. -/
theorem Segment.Fits.count_newline {seg : Segment} {rest : List Char} (h : seg.Fits d rest)
    (hseg : seg.isTrivia = false) : seg.text.count '\n' = 0 := by
  rw [List.count_eq_zero]
  cases seg with
  | blank => cases hseg
  | block => cases hseg
  | line => cases hseg
  | stray c =>
    -- a newline would be a blank
    intro hmem
    rw [text, List.mem_singleton] at hmem
    have hblank := h.1.blank c rest rfl
    rw [← hmem] at hblank
    exact absurd hblank (by decide)
  | lexeme chars tag => exact fun hmem => absurd (h.2.1 '\n' hmem) (by decide)

namespace Trivia

theorem skip_of_none {u : List Char} (h : length? u = none) (line : Nat) :
    skip line u = (line, u) := by
  rw [skip]
  split
  · rfl
  · rename_i hsome
    rw [h] at hsome
    cases hsome

theorem skip_of_some {u : List Char} {k : Nat} (h : length? u = some k) (line : Nat) :
    skip line u = skip (line + (u.take k).count '\n') (u.drop k) := by
  rw [skip]
  split
  · rename_i hnone
    rw [h] at hnone
    cases hnone
  · rename_i hsome
    rw [h] at hsome
    rw [Option.some.inj hsome]

end Trivia

/-- Skipping goes over the trivia that a split text begins with, and counts their
newlines. -/
theorem Splits.skip {u : List Char} (h : Splits d u segs tail)
    (hend : tail = [] ∨ IsUnterminated tail) (line : Nat) :
    ∃ trivia more rest, segs = trivia ++ more ∧ (∀ seg ∈ trivia, seg.isTrivia = true) ∧
      Splits d rest more tail ∧ (∀ seg ∈ more.head?, seg.isTrivia = false) ∧
      Trivia.skip line u = (line + (trivia.flatMap Segment.text).count '\n', rest) := by
  induction h generalizing line with
  | done u =>
    have hnone : Trivia.length? u = none := by
      rcases hend with rfl | hend
      · rfl
      · exact hend.length?_eq_none
    exact ⟨[], [], u, rfl, fun seg hseg => absurd hseg List.not_mem_nil, .done u,
      fun seg hseg => absurd hseg (by simp), Trivia.skip_of_none hnone line⟩
  | @next seg rest tail segs hfits hsplits ih =>
    have hlength := hfits.length?
    cases hseg : seg.isTrivia with
    | true =>
      rw [hseg, if_pos rfl] at hlength
      obtain ⟨trivia, more, rest', rfl, htrivia, hmore, hhead, hskip⟩ :=
        ih hend (line + seg.text.count '\n')
      refine ⟨seg :: trivia, more, rest', rfl, List.forall_mem_cons.mpr ⟨hseg, htrivia⟩, hmore,
        hhead, ?_⟩
      rw [Trivia.skip_of_some hlength, List.take_left, List.drop_left, hskip, List.flatMap_cons,
        List.count_append, Nat.add_assoc]
    | false =>
      rw [hseg, if_neg Bool.false_ne_true] at hlength
      refine ⟨[], seg :: segs, seg.text ++ rest, rfl, fun seg hseg => absurd hseg List.not_mem_nil,
        .next hfits hsplits, ?_, Trivia.skip_of_none hlength line⟩
      rintro _ ⟨⟩
      exact hseg

namespace Scanner

/-- A segment that is not trivia is read as what it yields. -/
theorem read_of_fits {seg : Segment} {rest : List Char} (hpending : s.pending = none)
    (hrest : s.rest = seg.text ++ rest) (hfits : seg.Fits d rest) (hseg : seg.isTrivia = false) :
    ∃ item owed, seg.yields s.line = item :: owed.toList.map Item.token ∧
      s.read d = (some item, { s with rest := rest, pending := owed }) := by
  cases seg with
  | blank => cases hseg
  | block => cases hseg
  | line => cases hseg
  | stray c =>
    obtain ⟨hbare, hsilent⟩ := hfits
    refine ⟨_, none, rfl, ?_⟩
    rw [← hpending, read, hrest]
    simp only [Segment.text, List.singleton_append, hbare.opensBlock_eq_false, Bool.false_eq_true,
      if_false, Dfa.munch_eq_none hsilent]
  | lexeme chars tag =>
    obtain ⟨hne, _, hbare, hverdict, hsilent⟩ := hfits
    refine ⟨_, _, rfl, ?_⟩
    have hmunch := Dfa.munch_eq_some (List.prefix_append chars rest) hne hverdict hsilent
    rw [Segment.text] at hrest
    rw [read]
    split
    · rename_i hnil
      rw [hrest] at hnil
      exact absurd (List.append_eq_nil_iff.mp hnil).1 hne
    · simp only [hrest, hbare.opensBlock_eq_false, Bool.false_eq_true, if_false, hmunch,
        List.take_left, List.drop_left]

theorem read_of_unterminated (h : IsUnterminated s.rest) :
    s.read d = (some (.diagnostic (.unterminatedComment s.line)), { s with halted := true }) := by
  have hopens := h.opensBlock
  obtain ⟨body, hrest, _⟩ := h
  rw [hrest] at hopens
  simp only [read, hrest, hopens, if_true]

/-- What one call does where nothing is owed: it steps over trivia, and then it
finds the end of the text, a comment without end, or one segment more. -/
theorem next_cases (hpending : s.pending = none) (hhalted : s.halted = false)
    (hline : s.line = lineAfter before) (h : Splits d s.rest todo tail)
    (hend : tail = [] ∨ IsUnterminated tail) :
    ∃ trivia more, todo = trivia ++ more ∧ (∀ seg ∈ trivia, seg.isTrivia = true) ∧
      let line := lineAfter (before ++ trivia.flatMap Segment.text)
      (more = [] ∧ tail = [] ∧
        s.next d = (none, { s with rest := [], line := line, halted := true })) ∨
      (more = [] ∧ IsUnterminated tail ∧
        s.next d = (some (.diagnostic (.unterminatedComment line)),
          { s with rest := tail, line := line, halted := true })) ∨
      ∃ seg segs rest item owed, more = seg :: segs ∧ Splits d rest segs tail ∧
        seg.yields line = item :: owed.toList.map Item.token ∧
        s.next d = (some item, { s with
          rest := rest
          line := lineAfter (before ++ trivia.flatMap Segment.text ++ seg.text)
          pending := owed }) := by
  obtain ⟨trivia, more, rest, rfl, htrivia, hsplits, hhead, hskip⟩ := h.skip hend s.line
  have hplace : s.skipTrivia =
      { s with rest := rest, line := lineAfter (before ++ trivia.flatMap Segment.text) } := by
    rw [skipTrivia, hskip, hline, lineAfter_append]
  have hnext : s.next d = s.skipTrivia.read d := by
    rw [next, hpending]
    simp only [hhalted, Bool.false_eq_true, if_false]
  refine ⟨trivia, more, rfl, htrivia, ?_⟩
  rw [hnext, hplace]
  cases hsplits with
  | done =>
    rcases hend with rfl | hend
    · exact .inl ⟨rfl, rfl, rfl⟩
    · exact .inr (.inl ⟨rfl, hend, read_of_unterminated hend⟩)
  | @next seg rest' _ segs hfits hsplits =>
    obtain ⟨item, owed, hyields, hread⟩ := read_of_fits
      (s := { s with rest := seg.text ++ rest',
                     line := lineAfter (before ++ trivia.flatMap Segment.text) })
      hpending rfl hfits (hhead seg rfl)
    refine .inr (.inr ⟨seg, segs, rest', item, owed, rfl, hsplits, hyields, ?_⟩)
    rw [hread, lineAfter_append _ seg.text, hfits.count_newline (hhead seg rfl), Nat.add_zero]

/-! ## Every call leaves the scanner between segments -/

/-- The scanner stands between two segments of a split source, or behind the last,
and has counted the newlines before it. -/
def Stands (d : Dfa) (segs : List Segment) (tail : List Char) (s : Scanner) : Prop :=
  ∃ before todo, segs = before ++ todo ∧ Splits d s.rest todo tail ∧
    s.line = lineAfter (before.flatMap Segment.text)

theorem Stands.next (h : s.Stands d segs tail) (hend : tail = [] ∨ IsUnterminated tail) :
    (s.next d).2.Stands d segs tail := by
  obtain ⟨before, todo, rfl, hsplits, hline⟩ := h
  cases hpending : s.pending with
  | some t =>
    rw [Scanner.next, hpending]
    exact ⟨before, todo, rfl, hsplits, hline⟩
  | none =>
    cases hhalted : s.halted with
    | true =>
      rw [Scanner.next, hpending]
      simp only [hhalted, if_true]
      exact ⟨before, todo, rfl, hsplits, hline⟩
    | false =>
      obtain ⟨trivia, more, rfl, _, hcases⟩ := next_cases hpending hhalted hline hsplits hend
      rw [← List.flatMap_append] at hcases
      rcases hcases with ⟨rfl, rfl, hnext⟩ | ⟨rfl, _, hnext⟩ |
        ⟨seg, segs, rest, item, owed, rfl, hrest, _, hnext⟩
      · rw [hnext]
        exact ⟨before ++ trivia, [], List.append_assoc _ _ _ |>.symm, .done [], rfl⟩
      · rw [hnext]
        exact ⟨before ++ trivia, [], List.append_assoc _ _ _ |>.symm, .done tail, rfl⟩
      · rw [hnext]
        have hconsumed : (before ++ trivia ++ [seg]).flatMap Segment.text =
            (before ++ trivia).flatMap Segment.text ++ seg.text := by
          rw [List.flatMap_append, List.flatMap_singleton]
        exact ⟨before ++ trivia ++ [seg], segs, by simp, hrest, by rw [hconsumed]⟩

/-- The scanner after `n` calls of `next`, if none of them enters a missing state. -/
def after? (d : Dfa) : (n : Nat) → Scanner → Option Scanner
  | 0, s => some s
  | n + 1, s => (s.next? d).bind fun called => called.2.after? d n

theorem next?_of_closed (hd : d.Closed) (s : Scanner) : s.next? d = some (s.next d) :=
  if_pos (isSafe_of_closed hd s)

/-- Any number of calls leaves the scanner between segments. -/
theorem Stands.after? (hd : d.Closed) (h : s.Stands d segs tail)
    (hend : tail = [] ∨ IsUnterminated tail) (n : Nat) :
    ∃ s', s.after? d n = some s' ∧ s'.Stands d segs tail := by
  induction n generalizing s with
  | zero => exact ⟨s, rfl, h⟩
  | succ n ih =>
    obtain ⟨s', hafter, hstands⟩ := ih (h.next hend)
    refine ⟨s', ?_, hstands⟩
    rw [Scanner.after?, next?_of_closed hd, Option.bind_some, hafter]

/-! ## A whole scan -/

/-- An owed token comes before all else. -/
theorem drainOnto_of_pending (s : Scanner) (collected : List Item) :
    s.drainOnto d collected =
      ({ s with pending := none } : Scanner).drainOnto d
        ((s.pending.toList.map Item.token).reverse ++ collected) := by
  obtain ⟨rest, line, pending, halted⟩ := s
  cases pending with
  | none => rfl
  | some t => exact drainOnto_of_some rfl collected

/-- The items of a scan from any place, behind those collected. -/
theorem drainOnto_of_splits (hpending : s.pending = none) (hhalted : s.halted = false)
    (hline : s.line = lineAfter before) (h : Splits d s.rest todo tail)
    (hend : tail = [] ∨ IsUnterminated tail) (collected : List Item) :
    ∃ last, s.drainOnto d collected =
      (collected.reverse ++ (itemsAfter before todo ++
        ending (lineAfter (before ++ todo.flatMap Segment.text)) tail), last) ∧
      last.rest = tail := by
  -- on the number of segments: a call may step over any number of them
  induction hn : todo.length using Nat.strongRecOn generalizing s before todo collected with
  | ind n ih =>
    obtain ⟨trivia, more, rfl, htrivia, hcases⟩ := next_cases hpending hhalted hline h hend
    rw [itemsAfter_append, itemsAfter_of_isTrivia before htrivia, List.nil_append,
      List.flatMap_append, ← List.append_assoc before]
    rcases hcases with ⟨rfl, rfl, hnext⟩ | ⟨rfl, htail, hnext⟩ |
      ⟨seg, segs, rest, item, owed, rfl, hrest, hyields, hnext⟩
    · refine ⟨(s.next d).2, ?_, by rw [hnext]⟩
      rw [drainOnto_of_none hnext, hnext]
      simp only [itemsAfter, ending, List.append_nil]
    · have hdone := drainOnto_of_halted (d := d) (s := { s with
        rest := tail
        line := lineAfter (before ++ trivia.flatMap Segment.text)
        halted := true }) hpending rfl
      refine ⟨(s.next d).2, ?_, by rw [hnext]⟩
      rw [drainOnto_of_some hnext, hdone, hnext, htail.ending]
      simp only [itemsAfter, List.flatMap_nil, List.append_nil, List.nil_append, List.reverse_cons]
    · have hshort : segs.length < n := by
        rw [← hn, List.length_append, List.length_cons]
        omega
      obtain ⟨last, hdrain, hlast⟩ := ih segs.length hshort (s := { s with
          rest := rest
          line := lineAfter (before ++ trivia.flatMap Segment.text ++ seg.text)
          pending := none }) rfl hhalted rfl hrest
        ((owed.toList.map Item.token).reverse ++ item :: collected) rfl
      refine ⟨last, ?_, hlast⟩
      rw [drainOnto_of_some hnext, drainOnto_of_pending, hdrain, itemsAfter, hyields,
        List.flatMap_cons]
      simp only [List.reverse_append, List.reverse_reverse, List.reverse_cons, List.append_assoc,
        List.nil_append, List.cons_append]

end Scanner

/-- The items of a split source, and where its scan ends. -/
theorem Scanner.drain?_of_splits (hd : d.Closed) {source : String}
    (h : Splits d source.toList segs tail) (hend : tail = [] ∨ IsUnterminated tail) :
    ∃ last, (Scanner.ofText source).drain? d =
      some (itemsAfter [] segs ++ ending (lineAfter (segs.flatMap Segment.text)) tail, last) ∧
      last.rest = tail := by
  have hline : (Scanner.ofText source).line = lineAfter [] := rfl
  obtain ⟨last, hdrain, hlast⟩ := drainOnto_of_splits rfl rfl hline h hend []
  refine ⟨last, ?_, hlast⟩
  rw [drain?_eq_drain hd, drain, hdrain]
  rfl

/-! ## Lines -/

/-- The line of an item. -/
def Item.line : Item → Nat
  | token t => t.line
  | diagnostic e => e.line

/-- A lexeme is a token, or it is reported and may be owed. It keeps its line. -/
theorem classify_cases (kind : String) (lexeme : List Char) (line : Nat) :
    (∃ t, classify kind lexeme line = (.token t, none) ∧ t.line = line) ∨
      ∃ e owed, classify kind lexeme line = (.diagnostic e, owed) ∧ e.line = line ∧
        ∀ t ∈ owed, t.line = line := by
  unfold classify
  simp only
  split
  · split
    · exact .inl ⟨_, rfl, rfl⟩
    · exact .inr ⟨_, _, rfl, rfl, fun t ht => by cases ht; rfl⟩
  · split
    · split
      · exact .inl ⟨_, rfl, rfl⟩
      · split
        · exact .inl ⟨_, rfl, rfl⟩
        · exact .inr ⟨_, _, rfl, rfl, fun t ht => by cases ht⟩
    · exact .inl ⟨_, rfl, rfl⟩

/-- Whatever a lexeme is taken for, it keeps its line. -/
theorem line_classify (kind : String) (lexeme : List Char) (line : Nat) :
    (classify kind lexeme line).1.line = line ∧
      ∀ t ∈ (classify kind lexeme line).2, t.line = line := by
  rcases classify_cases kind lexeme line with ⟨t, h, hline⟩ | ⟨e, owed, h, hline, howed⟩
  · rw [h]
    exact ⟨hline, fun t ht => by cases ht⟩
  · rw [h]
    exact ⟨hline, howed⟩

theorem Segment.line_of_mem_yields {seg : Segment} {line : Nat} {item : Item}
    (h : item ∈ seg.yields line) : item.line = line := by
  cases seg with
  | blank => cases h
  | block => cases h
  | line => cases h
  | stray c =>
    obtain rfl := List.mem_singleton.mp h
    rfl
  | lexeme chars tag =>
    obtain ⟨hitem, howed⟩ := line_classify tag.token chars line
    rcases List.mem_cons.mp h with rfl | h
    · exact hitem
    · obtain ⟨t, ht, rfl⟩ := List.mem_map.mp h
      exact howed t (Option.mem_toList.mp ht)

/-- A scan cuts its source into segments, of which none is empty, and nothing is
left but a block comment without end. It yields what there is to say about each
segment, in order and with the line on which the segment starts, and last the
comment without end. After any number of calls the scanner stands between two
segments, and its line is that of the text before it. -/
theorem Dfa.scan_partition (hd : d.Closed) (source : String) :
    ∃ segs tail items last, (Scanner.ofText source).drain? d = some (items, last) ∧
      source.toList = segs.flatMap Segment.text ++ tail ∧ last.rest = tail ∧
      (∀ seg ∈ segs, seg.text ≠ []) ∧ Splits d source.toList segs tail ∧
      (tail = [] ∧ items = itemsAfter [] segs ∨
        IsUnterminated tail ∧ items = itemsAfter [] segs ++
          [.diagnostic (.unterminatedComment (lineAfter (segs.flatMap Segment.text)))]) ∧
      (∀ seg ∈ segs, ∀ line, ∀ item ∈ seg.yields line, item.line = line) ∧
      ∀ n, ∃ s before todo, (Scanner.ofText source).after? d n = some s ∧ segs = before ++ todo ∧
        s.rest = todo.flatMap Segment.text ++ tail ∧
        s.line = lineAfter (before.flatMap Segment.text) := by
  obtain ⟨segs, tail, hsplits, hend⟩ := exists_splits d source.toList
  obtain ⟨last, hdrain, hlast⟩ := Scanner.drain?_of_splits hd hsplits hend
  refine ⟨segs, tail, _, last, hdrain, hsplits.eq_append, hlast, hsplits.text_ne_nil, hsplits, ?_,
    fun seg _ line item hitem => Segment.line_of_mem_yields hitem, fun n => ?_⟩
  · rcases hend with rfl | hend
    · exact .inl ⟨rfl, List.append_nil _⟩
    · exact .inr ⟨hend, by rw [hend.ending]⟩
  · have hstart : (Scanner.ofText source).Stands d segs tail := ⟨[], segs, rfl, hsplits, rfl⟩
    obtain ⟨s, hafter, before, todo, hsegs, hrest, hline⟩ := hstart.after? hd hend n
    exact ⟨s, before, todo, hafter, hsegs, hrest.eq_append, hline⟩

/-- A table that takes the letter `a` for a decimal literal, which it is not. -/
def Dfa.mislabelled : Dfa :=
  ((Dfa.empty.insert [0] none).dfa.insert [1] (some ⟨Kind.decimalLiteral, 1⟩)).dfa.setEdge 0 97 1

/-- The letter is reported and then owed, and the newline in the comment counts. -/
theorem Dfa.scan_partition_mislabelled : mislabelled.Closed ∧
    ∃ segs, Splits mislabelled "a\n/*\n*/?".toList segs [] ∧ itemsAfter [] segs =
      [.diagnostic (.invalidDecimalLiteral 1 "a"), .token ⟨Kind.decimalLiteral, "a", 1⟩,
        .diagnostic (.unrecognizedSymbol 3 '?')] := by
  have hclosed : mislabelled.Closed := by decide +kernel
  have hscan : ((Scanner.ofText "a\n/*\n*/?").drain? mislabelled).map Prod.fst = some
      [.diagnostic (.invalidDecimalLiteral 1 "a"), .token ⟨Kind.decimalLiteral, "a", 1⟩,
        .diagnostic (.unrecognizedSymbol 3 '?')] := by decide +kernel
  obtain ⟨segs, tail, items, last, hdrain, _, _, _, hsplits, hitems, _⟩ :=
    scan_partition hclosed "a\n/*\n*/?"
  rw [hdrain, Option.map_some, Option.some.injEq] at hscan
  refine ⟨hclosed, segs, ?_⟩
  rcases hitems with ⟨rfl, rfl⟩ | ⟨_, rfl⟩
  · exact ⟨hsplits, hscan⟩
  · -- the last item is no comment without end
    have hlast := congrArg List.getLast? hscan
    rw [List.getLast?_concat] at hlast
    cases hlast

end Munch
