import Munch.Proofs.Nfa.Classes
import Munch.Proofs.Scan.Cursor

/-!
# Comments as trivia and as patterns

Comments are known twice: as trivia, which a scanner measures by a search in the
text, and as the patterns `Pattern.blockComment` and `Pattern.lineComment`, which
fragments accept. Over printable characters and newlines the two agree. A block
comment may have closing marks inside as far as its pattern goes, so the scanner's is
the shortest front that the pattern has (`Trivia.length_le_of_closer`); a line comment
may end anywhere as far as its pattern goes, so the scanner's is the longest.
-/

namespace Munch

open Pattern

variable {d : Dfa} {s : Scanner} {n : Nfa} {u v : List Char}

/-! ## Fronts of a text -/

namespace Build

/-- A front of the text to which the fragment of the action says yes. -/
structure AcceptsFront (act : Build Fragment) (n : Nfa) (u v : List Char) : Prop where
  is_front : v <+: u
  yes : act.answer? n v = some true

/-- The shortest front of the text to which the fragment says yes. -/
structure ShortestFront (act : Build Fragment) (n : Nfa) (u v : List Char) : Prop
    extends AcceptsFront act n u v where
  least : ∀ w, AcceptsFront act n u w → v.length ≤ w.length

/-- The longest front of the text to which the fragment says yes. -/
structure LongestFront (act : Build Fragment) (n : Nfa) (u v : List Char) : Prop
    extends AcceptsFront act n u v where
  greatest : ∀ w, AcceptsFront act n u w → w.length ≤ v.length

end Build

/-- Of two marks that close a comment, the first one is not behind the other. -/
theorem Trivia.length_le_of_closer {inner body rest : List Char}
    (h : ¬closer <:+: inner ++ ['*'])
    (hbody : body ++ closer <+: inner ++ '*' :: '/' :: rest) : inner.length ≤ body.length := by
  by_contra hlt
  -- the other mark would end before the slash of the first one
  have hfront : body ++ closer <+: inner ++ ['*'] := by
    apply List.prefix_of_prefix_length_le hbody ⟨'/' :: rest, by simp⟩
    rw [List.length_append, List.length_append, List.length_singleton]
    show body.length + 2 ≤ inner.length + 1
    omega
  exact h ((List.suffix_append body closer).isInfix.trans hfront.isInfix)

/-! ## Block comments -/

/-- The block comment that a scanner finds is the shortest front that the pattern has. -/
theorem shortestFront_block {inner rest : List Char} (hn : n.Closed)
    (hinner : ¬Trivia.closer <:+: inner ++ ['*'])
    (hchars : ∀ c ∈ inner, (isPrintable c || c = '\n') = true) :
    blockComment.ShortestFront n ((Segment.block inner).text ++ rest)
      (Segment.block inner).text := by
  have hdecides := builds_blockComment.decides spells_blockComments hn
  refine ⟨⟨List.prefix_append _ _, (hdecides.answer?_eq_true_iff _).mpr ⟨inner, rfl, hchars⟩⟩, ?_⟩
  rintro w ⟨hw, hyes⟩
  obtain ⟨body, rfl, _⟩ := (hdecides.answer?_eq_true_iff _).mp hyes
  have hclose : body ++ Trivia.closer <+: inner ++ '*' :: '/' :: rest := by
    simpa [Segment.text, Trivia.closer] using hw
  have hle := Trivia.length_le_of_closer hinner hclose
  simp only [Segment.text, List.length_cons, List.length_append]
  omega

/-- A comment without end has no front that the pattern has. -/
theorem IsUnterminated.not_acceptsFront (h : IsUnterminated u) (hn : n.Closed) (v : List Char) :
    ¬blockComment.AcceptsFront n u v := by
  rintro ⟨hv, hyes⟩
  have hdecides := builds_blockComment.decides spells_blockComments hn
  obtain ⟨body, rfl, _⟩ := (hdecides.answer?_eq_true_iff _).mp hyes
  obtain ⟨text, rfl, hno⟩ := h
  have hclose : body ++ Trivia.closer <+: text := by
    simpa [Trivia.closer] using hv
  exact hno ((List.suffix_append body _).isInfix.trans hclose.isInfix)

/-! ## Line comments -/

/-- The line comment that a scanner finds is the longest front that the pattern has. -/
theorem longestFront_line {body : List Char} (hn : n.Closed)
    (hchars : ∀ c ∈ body, (isPrintable c || c = '\n') = true) :
    lineComment.LongestFront n ('/' :: '/' :: body)
      (Segment.line (body.takeWhile (· ≠ '\n'))).text := by
  have hdecides := builds_lineComment.decides spells_lineComments hn
  have hprintable : ∀ c ∈ body.takeWhile (· ≠ '\n'), isPrintable c = true := by
    intro c hc
    have hne : c ≠ '\n' := by simpa using List.mem_takeWhile_imp hc
    simpa [hne] using hchars c ((List.takeWhile_prefix _).subset hc)
  refine ⟨⟨?_, (hdecides.answer?_eq_true_iff _).mpr ⟨_, rfl, hprintable⟩⟩, ?_⟩
  · simpa [Segment.text] using List.takeWhile_prefix _
  · rintro w ⟨hw, hyes⟩
    obtain ⟨front, rfl, hfront⟩ := (hdecides.answer?_eq_true_iff _).mp hyes
    have hbody : front <+: body := by simpa using hw
    have hle := length_le_takeWhile (p := (· ≠ '\n')) hbody fun c hc => by
      rw [decide_eq_true_iff]
      rintro rfl
      exact absurd (hfront '\n' hc) (by decide)
    simp only [Segment.text, List.length_cons]
    omega

/-! ## What a scanner does before a comment -/

namespace Scanner

/-- The place behind a front of what is left. -/
def behind (s : Scanner) (v : List Char) : Scanner :=
  { s with rest := s.rest.drop v.length, line := s.line + v.count '\n' }

/-- The scanner takes the front for one blank or comment and goes on behind it. -/
structure Skips (d : Dfa) (s : Scanner) (v : List Char) : Prop where
  is_front : v <+: s.rest
  length? : Trivia.length? s.rest = some v.length
  next? : s.next? d = (s.behind v).next? d

/-- A call depends on what is left behind the trivia only. -/
theorem next?_eq_of_skipTrivia {s' : Scanner} (hpending : s.pending = s'.pending)
    (hhalted : s.halted = s'.halted) (hpending' : s.pending = none) (hhalted' : s.halted = false)
    (hskip : s.skipTrivia = s'.skipTrivia) : s.next? d = s'.next? d := by
  simp only [Scanner.next?, isSafe, next, ← hpending, ← hhalted, hpending', hhalted', hskip,
    Bool.false_eq_true, if_false]

theorem skips_of_fits (hpending : s.pending = none) (hhalted : s.halted = false) {seg : Segment}
    {rest : List Char} (hrest : s.rest = seg.text ++ rest) (hfits : seg.Fits d rest)
    (hseg : seg.isTrivia = true) : s.Skips d seg.text := by
  refine ⟨⟨rest, hrest.symm⟩, ?_, ?_⟩
  · rw [hrest, hfits.length?, if_pos hseg]
  · have hskip := skipTrivia_of_fits hrest hfits hseg
    have hbehind : s.behind seg.text =
        { s with rest := rest, line := s.line + seg.text.count '\n' } := by
      rw [behind, hrest, List.drop_left]
    exact next?_eq_of_skipTrivia rfl rfl hpending hhalted (hbehind ▸ hskip)

/-- Before a comment without end the scanner stays where it is. -/
theorem next?_of_unterminated (hpending : s.pending = none) (hhalted : s.halted = false)
    (h : IsUnterminated s.rest) :
    s.next? d = some (some (.diagnostic (.unterminatedComment s.line)),
      { s with halted := true }) := by
  have hskip : s.skipTrivia = s := skipTrivia_of_none h.length?_eq_none
  have hsafe : s.isSafe d = true := by
    simp only [isSafe, hskip, h.opensBlock, Bool.true_or, Bool.or_true]
  rw [Scanner.next?, if_pos hsafe, next, hpending]
  simp only [hhalted, Bool.false_eq_true, if_false, hskip, read_of_unterminated h, hpending]

theorem length_rest_next_le (d : Dfa) (s : Scanner) :
    (s.next d).2.rest.length ≤ s.rest.length := by
  have hskip : s.skipTrivia.rest.length ≤ s.rest.length := Trivia.length_skip_le s.line s.rest
  unfold next
  split
  · exact Nat.le_refl _
  · split
    · exact Nat.le_refl _
    · refine Nat.le_trans ?_ hskip
      unfold read
      split
      · exact Nat.le_refl _
      · rename_i c cs hrest
        split
        · exact Nat.le_refl _
        · split
          · rw [hrest]
            exact Nat.le_succ _
          · rw [List.length_drop]
            exact Nat.sub_le _ _

theorem Skips.eq_take (h : s.Skips d v) {k : Nat} (hk : Trivia.length? s.rest = some k) :
    v = s.rest.take k := by
  have hlen : v.length = k := Option.some.inj (h.length?.symm.trans hk)
  exact hlen ▸ List.prefix_iff_eq_take.mp h.is_front

/-- A scanner that skips something does not stay where it is. -/
theorem Skips.rest_ne (h : s.Skips d v) {item : Option Item} {s' : Scanner}
    (hnext : s.next? d = some (item, s')) : s'.rest ≠ s.rest := by
  intro hsame
  have hpos := Trivia.length?_pos h.length?
  rw [h.next?, Scanner.next?] at hnext
  split at hnext
  · have hs' : ((s.behind v).next d).2 = s' := congrArg Prod.snd (Option.some.inj hnext)
    have hle := length_rest_next_le d (s.behind v)
    rw [hs', hsame, behind, List.length_drop] at hle
    have := List.length_pos_iff.mpr hpos.2
    omega
  · cases hnext

/-- Before the mark of a block comment the scanner skips the shortest front that the
pattern has, and it reports the comment and stays where it is exactly if there is none.
Before the mark of a line comment it skips the longest front that the pattern has. -/
theorem comments_agree (hn : n.Closed) (d : Dfa) (hpending : s.pending = none)
    (hhalted : s.halted = false) (hchars : ∀ c ∈ s.rest, (isPrintable c || c = '\n') = true) :
    (['/', '*'] <+: s.rest →
      (∀ v, blockComment.AcceptsFront n s.rest v →
        ∃ w, blockComment.ShortestFront n s.rest w ∧ s.Skips d w) ∧
      (s.next? d = some (some (.diagnostic (.unterminatedComment s.line)),
          { s with halted := true }) ↔
        ∀ v, ¬blockComment.AcceptsFront n s.rest v)) ∧
    (['/', '/'] <+: s.rest → ∃ w, lineComment.LongestFront n s.rest w ∧ s.Skips d w) := by
  constructor
  · rintro ⟨body, hbody⟩
    cases hclose : Trivia.closeAt? 2 body with
    | none =>
      have hopen : IsUnterminated s.rest :=
        ⟨body, hbody.symm, Trivia.closeAt?_eq_none_iff.mp hclose⟩
      have hnone := hopen.not_acceptsFront hn
      exact ⟨fun v hv => absurd hv (hnone v),
        fun _ => hnone, fun _ => next?_of_unterminated hpending hhalted hopen⟩
    | some k =>
      obtain ⟨inner, rest, rfl, hinner⟩ := Trivia.exists_of_closeAt?_eq_some hclose
      have hrest : s.rest = (Segment.block inner).text ++ rest := by
        rw [← hbody]
        simp [Segment.text]
      have hskips : s.Skips d (Segment.block inner).text :=
        skips_of_fits hpending hhalted hrest hinner rfl
      have hfront : blockComment.ShortestFront n s.rest (Segment.block inner).text := by
        rw [hrest]
        refine shortestFront_block hn hinner fun c hc => hchars c ?_
        rw [hrest]
        simp [Segment.text, hc]
      exact ⟨fun _ _ => ⟨_, hfront, hskips⟩, fun hstay => (hskips.rest_ne hstay rfl).elim,
        fun hnone => absurd hfront.toAcceptsFront (hnone _)⟩
  · rintro ⟨body, hbody⟩
    have hrest : s.rest = (Segment.line (body.takeWhile (· ≠ '\n'))).text ++
        body.dropWhile (· ≠ '\n') := by
      rw [← hbody]
      exact congrArg (['/', '/'] ++ ·) List.takeWhile_append_dropWhile.symm
    refine ⟨_, ?_, skips_of_fits hpending hhalted hrest (Segment.fits_line d body) rfl⟩
    rw [← hbody]
    refine longestFront_line hn fun c hc => hchars c ?_
    rw [← hbody]
    exact List.mem_append_right _ hc

/-- The star of the opening mark does not close a comment, so of `/*/` nothing is skipped
and of `/*/*/*/` the first five characters are. A line comment ends in front of its
newline. -/
theorem comments_agree_overlap :
    (Scanner.next? .empty { rest := ['/', '*', '/'] } =
      some (some (.diagnostic (.unterminatedComment 1)),
        { rest := ['/', '*', '/'], halted := true }) ∧
      ∀ v, ¬blockComment.AcceptsFront .empty ['/', '*', '/'] v) ∧
    blockComment.ShortestFront .empty ['/', '*', '/', '*', '/', '*', '/']
      ['/', '*', '/', '*', '/'] ∧
    lineComment.LongestFront .empty ['/', '/', 'a', '\n'] ['/', '/', 'a'] := by
  have hn : Nfa.empty.Closed := by decide
  obtain ⟨hopen, _⟩ := comments_agree (s := { rest := ['/', '*', '/'] }) hn .empty rfl rfl
    (List.all_eq_true.mp rfl)
  obtain ⟨hblock, _⟩ := comments_agree (s := { rest := ['/', '*', '/', '*', '/', '*', '/'] }) hn
    .empty rfl rfl (List.all_eq_true.mp rfl)
  obtain ⟨_, hline⟩ := comments_agree (s := { rest := ['/', '/', 'a', '\n'] }) hn .empty rfl rfl
    (List.all_eq_true.mp rfl)
  have hdecides := builds_blockComment.decides spells_blockComments hn
  have hreport : Scanner.next? .empty { rest := ['/', '*', '/'] } =
      some (some (.diagnostic (.unterminatedComment 1)),
        { rest := ['/', '*', '/'], halted := true }) := by decide +kernel
  refine ⟨⟨hreport, (hopen ⟨_, rfl⟩).2.mp hreport⟩, ?_, ?_⟩
  · -- the whole text is a front that the pattern has, but not the shortest one
    obtain ⟨w, hw, hskips⟩ := (hblock ⟨_, rfl⟩).1 _ ⟨List.prefix_refl _,
      (hdecides.answer?_eq_true_iff _).mpr ⟨['/', '*', '/'], rfl, List.all_eq_true.mp rfl⟩⟩
    obtain rfl := hskips.eq_take rfl
    exact hw
  · obtain ⟨w, hw, hskips⟩ := hline ⟨_, rfl⟩
    obtain rfl := hskips.eq_take rfl
    exact hw

end Scanner

end Munch
