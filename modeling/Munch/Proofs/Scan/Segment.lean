import Mathlib.Data.List.Infix
import Mathlib.Data.List.TakeWhile
import Munch.Proofs.Scan.LongestMatch
import Munch.Scan.Scanner

/-!
# The segments of a source

A scan cuts a source into segments: blanks, comments, lexemes, and characters at
which no lexeme begins. `Segment.Fits` says when a segment is what a text begins
with, in terms of the text behind it, and `Splits` puts segments one behind the
other. What is left in the end is nothing or a comment without end, and every
text can be split that far (`exists_splits`).

`Segment.yields` is what a scan has to say about a segment, and `itemsAfter` what
it has to say about a row of them behind a given text.
-/

namespace Munch

variable {d : Dfa}

/-! ## Where a comment ends -/

namespace Trivia

/-- The mark that ends a block comment. -/
def closer : List Char := ['*', '/']

/-- A text that has the closer in front begins with its two characters. -/
theorem closer_prefix_iff {c : Char} {cs : List Char} :
    closer <+: c :: cs ↔ c = '*' ∧ ∃ rest, cs = '/' :: rest := by
  constructor
  · rintro ⟨rest, heq⟩
    obtain ⟨rfl, rfl⟩ := List.cons.inj heq
    exact ⟨rfl, rest, rfl⟩
  · rintro ⟨rfl, rest, rfl⟩
    exact ⟨rest, rfl⟩

theorem closeAt?_cons {passed : Nat} {c : Char} {cs : List Char} (h : ¬closer <+: c :: cs) :
    closeAt? passed (c :: cs) = closeAt? (passed + 1) cs := by
  rw [closeAt?]
  intro rest hc hcs
  exact h (closer_prefix_iff.mpr ⟨hc, rest, hcs⟩)

/-- The search finds the first closer. -/
theorem closeAt?_append {body : List Char} (h : ¬closer <:+: body ++ ['*']) (passed : Nat)
    (rest : List Char) :
    closeAt? passed (body ++ '*' :: '/' :: rest) = some (passed + body.length + 2) := by
  induction body generalizing passed with
  | nil => rfl
  | cons c body ih =>
    rw [List.cons_append, List.infix_cons_iff, not_or] at h
    -- the first two characters are those of the body and the star behind it
    have hfront : ¬closer <+: c :: (body ++ '*' :: '/' :: rest) := by
      intro hfront
      apply h.1
      rw [closer_prefix_iff] at hfront ⊢
      obtain ⟨hc, tail, heq⟩ := hfront
      cases body with
      | nil => exact absurd (List.cons.inj heq).1 (by decide)
      | cons c' body =>
        obtain ⟨rfl, _⟩ := List.cons.inj heq
        exact ⟨hc, _, rfl⟩
    rw [List.cons_append, closeAt?_cons hfront, ih h.2, List.length_cons]
    congr 1
    omega

theorem closeAt?_eq_none_iff {passed : Nat} {cs : List Char} :
    closeAt? passed cs = none ↔ ¬closer <:+: cs := by
  fun_induction closeAt? passed cs with
  | case1 passed rest =>
    have hfound : closer <:+: '*' :: '/' :: rest := ⟨[], rest, rfl⟩
    exact ⟨fun h => absurd h (by simp), fun h => absurd hfound h⟩
  | case2 passed c cs hno ih =>
    have hfront : ¬closer <+: c :: cs := by
      rw [closer_prefix_iff]
      rintro ⟨hc, rest, hcs⟩
      exact hno rest hc hcs
    rw [ih, List.infix_cons_iff, not_or]
    exact ⟨fun h => ⟨hfront, h⟩, fun h => h.2⟩
  | case3 => exact ⟨fun _ h => absurd (List.infix_nil.mp h) (by decide), fun _ => rfl⟩

theorem exists_of_closeAt?_eq_some {passed k : Nat} {cs : List Char}
    (h : closeAt? passed cs = some k) :
    ∃ body rest, cs = body ++ '*' :: '/' :: rest ∧ ¬closer <:+: body ++ ['*'] := by
  fun_induction closeAt? passed cs with
  | case1 passed rest =>
    refine ⟨[], rest, rfl, ?_⟩
    rw [List.nil_append, List.infix_singleton_iff]
    decide
  | case2 passed c cs hno ih =>
    obtain ⟨body, rest, rfl, hbody⟩ := ih h
    refine ⟨c :: body, rest, rfl, ?_⟩
    rw [List.cons_append, List.infix_cons_iff, not_or, closer_prefix_iff]
    refine ⟨?_, hbody⟩
    rintro ⟨hc, tail, heq⟩
    -- a slash behind the star would stand in the text, too
    cases body with
    | nil => exact absurd (List.cons.inj heq).1 (by decide)
    | cons c' body =>
      obtain ⟨rfl, _⟩ := List.cons.inj heq
      exact hno _ hc rfl
  | case3 => cases h

end Trivia

/-! ## Segments -/

/-- One piece of a source. -/
inductive Segment where
  | blank (c : Char)
  /-- A block comment, by what stands between its marks. -/
  | block (body : List Char)
  /-- A line comment, by what stands behind its mark. -/
  | line (body : List Char)
  /-- A character at which no lexeme begins. -/
  | stray (c : Char)
  | lexeme (chars : List Char) (tag : Tag)
deriving DecidableEq

/-- A text that begins with neither a blank nor the mark of a comment. -/
structure IsBare (u : List Char) : Prop where
  blank : ∀ c cs, u = c :: cs → Trivia.isBlank c = false
  block : ¬['/', '*'] <+: u
  line : ¬['/', '/'] <+: u

/-- A block comment that has no end. -/
def IsUnterminated (u : List Char) : Prop :=
  ∃ body, u = '/' :: '*' :: body ∧ ¬Trivia.closer <:+: body

namespace Segment

/-- The text of a segment. -/
def text : Segment → List Char
  | blank c => [c]
  | block body => '/' :: '*' :: (body ++ ['*', '/'])
  | line body => '/' :: '/' :: body
  | stray c => [c]
  | lexeme chars _ => chars

/-- Whether the segment only stands between others. -/
def isTrivia : Segment → Bool
  | blank _ | block _ | line _ => true
  | stray _ | lexeme _ _ => false

/-- The segment is what a text begins with that goes on with `rest`. A block
comment ends with the first closer and a line comment in front of a newline or at
the end of the text. At a stray character the table accepts nothing; a lexeme is
printable and the longest prefix that the table accepts. -/
def Fits (d : Dfa) (rest : List Char) : Segment → Prop
  | blank c => Trivia.isBlank c = true
  | block body => ¬Trivia.closer <:+: body ++ ['*']
  | line body => '\n' ∉ body ∧ (rest = [] ∨ ∃ more, rest = '\n' :: more)
  | stray c => IsBare (c :: rest) ∧ d.SilentBeyond d.start (c :: rest) 0
  | lexeme chars tag =>
    chars ≠ [] ∧ (∀ c ∈ chars, 32 ≤ c.toNat ∧ c.toNat ≤ 126) ∧ IsBare (chars ++ rest) ∧
      d.verdict chars = some tag ∧ d.SilentBeyond d.start (chars ++ rest) chars.length

/-- What a scan yields for a segment that starts on the given line. -/
def yields (line : Nat) : Segment → List Item
  | stray c => [.diagnostic (.unrecognizedSymbol line c)]
  | lexeme chars tag =>
    let found := classify tag.token chars line
    found.1 :: found.2.toList.map Item.token
  | blank _ | block _ | .line _ => []

theorem yields_of_isTrivia {seg : Segment} (h : seg.isTrivia = true) (line : Nat) :
    seg.yields line = [] := by
  cases seg with
  | blank => rfl
  | block => rfl
  | line => rfl
  | stray => cases h
  | lexeme => cases h

theorem Fits.text_ne_nil {seg : Segment} {rest : List Char} (h : seg.Fits d rest) :
    seg.text ≠ [] := by
  cases seg with
  | lexeme chars tag => exact h.1
  | _ => exact List.cons_ne_nil _ _

end Segment

/-- The text is made of the segments, one behind the other, and of `tail`. -/
inductive Splits (d : Dfa) : List Char → List Segment → List Char → Prop
  | done (u : List Char) : Splits d u [] u
  | next {seg : Segment} {rest tail : List Char} {segs : List Segment} :
    seg.Fits d rest → Splits d rest segs tail → Splits d (seg.text ++ rest) (seg :: segs) tail

theorem Splits.eq_append {u tail : List Char} {segs : List Segment} (h : Splits d u segs tail) :
    u = segs.flatMap Segment.text ++ tail := by
  induction h with
  | done u => rfl
  | next _ _ ih => rw [List.flatMap_cons, List.append_assoc, ← ih]

theorem Splits.text_ne_nil {u tail : List Char} {segs : List Segment} (h : Splits d u segs tail) :
    ∀ seg ∈ segs, seg.text ≠ [] := by
  induction h with
  | done u => exact fun seg hseg => absurd hseg List.not_mem_nil
  | next hfits _ ih => exact List.forall_mem_cons.mpr ⟨hfits.text_ne_nil, ih⟩

theorem Splits.append {u v w : List Char} {segs more : List Segment} (h : Splits d u segs v)
    (h' : Splits d v more w) : Splits d u (segs ++ more) w := by
  induction h with
  | done u => exact h'
  | next hfits _ ih => exact .next hfits (ih h')

/-! ## Trivia by segments -/

theorem IsBare.length?_eq_none {u : List Char} (h : IsBare u) : Trivia.length? u = none := by
  unfold Trivia.length?
  split
  · exact absurd ⟨_, rfl⟩ h.block
  · exact absurd ⟨_, rfl⟩ h.line
  · rename_i c cs _ _
    rw [h.blank c cs rfl]
    rfl
  · rfl

theorem IsBare.opensBlock_eq_false {u : List Char} (h : IsBare u) :
    Trivia.opensBlock u = false := by
  unfold Trivia.opensBlock
  split
  · exact absurd ⟨_, rfl⟩ h.block
  · rfl

/-- A text in front of which nothing is skipped is bare, or begins with a comment
that has no end. -/
theorem isBare_or_isUnterminated {u : List Char} (h : Trivia.length? u = none) :
    IsBare u ∨ IsUnterminated u := by
  unfold Trivia.length? at h
  split at h
  · rename_i body
    exact .inr ⟨body, rfl, Trivia.closeAt?_eq_none_iff.mp h⟩
  · cases h
  · rename_i c cs hblock hline
    refine .inl ⟨?_, ?_, ?_⟩
    · rintro c' cs' heq
      obtain ⟨rfl, rfl⟩ := List.cons.inj heq
      rw [← Bool.not_eq_true]
      intro hblank
      rw [if_pos hblank] at h
      cases h
    · rintro ⟨body, heq⟩
      obtain ⟨rfl, rfl⟩ := List.cons.inj heq
      exact hblock body rfl rfl
    · rintro ⟨body, heq⟩
      obtain ⟨rfl, rfl⟩ := List.cons.inj heq
      exact hline body rfl rfl
  · refine .inl ⟨?_, ?_, ?_⟩
    · intro c cs heq
      cases heq
    · exact fun hfront => absurd (List.prefix_nil.mp hfront) (by decide)
    · exact fun hfront => absurd (List.prefix_nil.mp hfront) (by decide)

theorem IsUnterminated.length?_eq_none {u : List Char} (h : IsUnterminated u) :
    Trivia.length? u = none := by
  obtain ⟨body, rfl, hbody⟩ := h
  exact Trivia.closeAt?_eq_none_iff.mpr hbody

theorem IsUnterminated.opensBlock {u : List Char} (h : IsUnterminated u) :
    Trivia.opensBlock u = true := by
  obtain ⟨body, rfl, _⟩ := h
  rfl

/-- What is measured in front of a text that begins with a segment. -/
theorem Segment.Fits.length? {seg : Segment} {rest : List Char} (h : seg.Fits d rest) :
    Trivia.length? (seg.text ++ rest) = if seg.isTrivia then some seg.text.length else none := by
  cases seg with
  | blank c =>
    have hc : Trivia.isBlank c = true := h
    rw [text, List.singleton_append, Trivia.length?]
    · rw [if_pos hc]
      rfl
    · rintro body rfl _
      exact absurd hc (by decide)
    · rintro body rfl _
      exact absurd hc (by decide)
  | block body =>
    have htext : (block body).text ++ rest = '/' :: '*' :: (body ++ '*' :: '/' :: rest) := by
      simp [text]
    rw [htext, Trivia.length?, Trivia.closeAt?_append h]
    simp only [isTrivia, text, if_true, List.length_cons, List.length_append, List.length_nil]
    congr 1
    omega
  | line body =>
    obtain ⟨hbody, hrest⟩ := h
    have htake : (body ++ rest).takeWhile (· ≠ '\n') = body := by
      rw [List.takeWhile_append_of_pos]
      · rcases hrest with rfl | ⟨more, rfl⟩ <;> simp
      · intro c hc
        rw [decide_eq_true_iff]
        rintro rfl
        exact hbody hc
    rw [text, List.cons_append, List.cons_append, Trivia.length?, htake]
    simp only [isTrivia, if_true, List.length_cons]
    congr 1
    omega
  | stray c => exact h.1.length?_eq_none
  | lexeme chars tag => exact h.2.2.1.length?_eq_none

/-! ## Every text can be split -/

/-- Up to the next newline a line comment is a segment. -/
theorem Segment.fits_line (d : Dfa) (body : List Char) :
    (line (body.takeWhile (· ≠ '\n'))).Fits d (body.dropWhile (· ≠ '\n')) := by
  refine ⟨fun hmem => absurd (List.mem_takeWhile_imp hmem) (by decide), ?_⟩
  cases hrest : body.dropWhile (· ≠ '\n') with
  | nil => exact .inl rfl
  | cons c more =>
    have hstop := List.head?_dropWhile_not (· ≠ '\n') body
    rw [hrest] at hstop
    have hnewline : c = '\n' := by simpa using hstop
    exact .inr ⟨more, by rw [hnewline]⟩

/-- The trivia that a text begins with are a segment. -/
theorem exists_trivia (d : Dfa) {u : List Char} {k : Nat} (h : Trivia.length? u = some k) :
    ∃ seg rest, u = Segment.text seg ++ rest ∧ seg.Fits d rest := by
  unfold Trivia.length? at h
  split at h
  · rename_i body
    obtain ⟨inner, rest, rfl, hinner⟩ := Trivia.exists_of_closeAt?_eq_some h
    exact ⟨.block inner, rest, by simp [Segment.text], hinner⟩
  · rename_i body
    refine ⟨.line (body.takeWhile (· ≠ '\n')), _, ?_, Segment.fits_line d body⟩
    rw [Segment.text, List.cons_append, List.cons_append, List.takeWhile_append_dropWhile]
  · rename_i c cs _ _
    rw [Option.ite_none_right_eq_some] at h
    exact ⟨.blank c, cs, rfl, h.1⟩
  · cases h

namespace Dfa

/-- Only printable characters lead anywhere. -/
theorem printable_of_stepChar {id target : Nat} {c : Char} (h : d.stepChar id c = some target) :
    32 ≤ c.toNat ∧ c.toNat ≤ 126 := by
  by_contra hc
  rw [stepChar, next?_eq_none_of_no_column
    ((Alphabet.index?_eq_none_iff _).mpr (by omega))] at h
  cases h

/-- A text with a verdict is printable. -/
theorem printable_of_verdictFrom {id : Nat} {cs : List Char} {tag : Tag}
    (h : d.verdictFrom id cs = some tag) : ∀ c ∈ cs, 32 ≤ c.toNat ∧ c.toNat ≤ 126 := by
  induction cs generalizing id with
  | nil => exact fun c hc => absurd hc List.not_mem_nil
  | cons c cs ih =>
    cases hstep : d.stepChar id c with
    | none =>
      rw [verdictFrom_cons_of_none hstep] at h
      cases h
    | some target =>
      rw [verdictFrom_cons hstep] at h
      exact List.forall_mem_cons.mpr ⟨printable_of_stepChar hstep, ih h⟩

end Dfa

/-- A bare text begins with a lexeme or a stray character. -/
theorem exists_lexeme_or_stray (d : Dfa) {c : Char} {cs : List Char} (h : IsBare (c :: cs)) :
    ∃ seg rest, c :: cs = Segment.text seg ++ rest ∧ seg.Fits d rest := by
  rcases d.munch_cases (c :: cs) with ⟨_, hsilent⟩ | ⟨v, tag, hv, hne, _, hverdict, hsilent⟩
  · exact ⟨.stray c, cs, rfl, h, hsilent⟩
  · obtain ⟨rest, heq⟩ := hv
    rw [← heq] at h hsilent ⊢
    exact ⟨.lexeme v tag, rest, rfl, hne, Dfa.printable_of_verdictFrom hverdict, h, hverdict,
      hsilent⟩

/-- Every text is made of segments, up to a comment without end if there is one. -/
theorem exists_splits (d : Dfa) (u : List Char) :
    ∃ segs tail, Splits d u segs tail ∧ (tail = [] ∨ IsUnterminated tail) := by
  induction hn : u.length using Nat.strongRecOn generalizing u with
  | ind n ih =>
    have hnext : ∀ seg rest, u = Segment.text seg ++ rest → seg.Fits d rest →
        ∃ segs tail, Splits d u segs tail ∧ (tail = [] ∨ IsUnterminated tail) := by
      intro seg rest heq hfits
      have hpos := List.length_pos_iff.mpr hfits.text_ne_nil
      have hlen : u.length = seg.text.length + rest.length := by rw [heq, List.length_append]
      obtain ⟨segs, tail, hsplits, htail⟩ := ih rest.length (by omega) rest rfl
      rw [heq]
      exact ⟨seg :: segs, tail, .next hfits hsplits, htail⟩
    cases hlength : Trivia.length? u with
    | some k =>
      obtain ⟨seg, rest, heq, hfits⟩ := exists_trivia d hlength
      exact hnext seg rest heq hfits
    | none =>
      rcases isBare_or_isUnterminated hlength with hbare | hunterminated
      · cases u with
        | nil => exact ⟨[], [], .done [], .inl rfl⟩
        | cons c cs =>
          obtain ⟨seg, rest, heq, hfits⟩ := exists_lexeme_or_stray d hbare
          exact hnext seg rest heq hfits
      · exact ⟨[], u, .done u, .inr hunterminated⟩

/-! ## What a scan says about segments -/

/-- The line behind a text: one, and one more for each newline. -/
def lineAfter (before : List Char) : Nat :=
  1 + before.count '\n'

@[simp] theorem lineAfter_append (before more : List Char) :
    lineAfter (before ++ more) = lineAfter before + more.count '\n' := by
  rw [lineAfter, lineAfter, List.count_append, Nat.add_assoc]

/-- What a scan yields for segments that stand behind a text. -/
def itemsAfter (before : List Char) : List Segment → List Item
  | [] => []
  | seg :: segs => seg.yields (lineAfter before) ++ itemsAfter (before ++ seg.text) segs

/-- What a scan yields for what is left behind all segments. -/
def ending (line : Nat) : List Char → List Item
  | [] => []
  | _ :: _ => [.diagnostic (.unterminatedComment line)]

theorem itemsAfter_append (before : List Char) (segs more : List Segment) :
    itemsAfter before (segs ++ more) =
      itemsAfter before segs ++ itemsAfter (before ++ segs.flatMap Segment.text) more := by
  induction segs generalizing before with
  | nil => rw [List.flatMap_nil, List.append_nil]; rfl
  | cons seg segs ih =>
    rw [List.cons_append, itemsAfter, itemsAfter, ih, List.flatMap_cons, List.append_assoc,
      List.append_assoc]

theorem itemsAfter_of_isTrivia (before : List Char) {segs : List Segment}
    (h : ∀ seg ∈ segs, seg.isTrivia = true) : itemsAfter before segs = [] := by
  induction segs generalizing before with
  | nil => rfl
  | cons seg segs ih =>
    rw [List.forall_mem_cons] at h
    rw [itemsAfter, Segment.yields_of_isTrivia h.1, ih _ h.2]
    rfl

theorem IsUnterminated.ending {u : List Char} (h : IsUnterminated u) (line : Nat) :
    ending line u = [.diagnostic (.unterminatedComment line)] := by
  obtain ⟨body, rfl, _⟩ := h
  rfl

end Munch
