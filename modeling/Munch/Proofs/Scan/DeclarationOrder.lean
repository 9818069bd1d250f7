import Munch.Proofs.Determinize.Outline
import Munch.Proofs.Lexicon
import Munch.Proofs.Scan.Partition

/-!
# The order of declaration

Whatever the order in which tokens are defined, the same exits are stamped and the
root leads to the same entries (`Lexicon.Defines`). So the order changes no more
than what the stamps say, and the tables have one outline. Where a lexeme ends
depends on which texts have a verdict and not on the verdict, so with tables of one
outline a source is split alike (`Dfa.SameOutline.splits`): only the tags of the
lexemes may differ. A scan goes over the segments of a split source one after the
other (`Dfa.consumes_of_splits`).
-/

namespace Munch

/-! ## Defining tokens in some order -/

namespace Lexicon

open Nfa

variable {n : Nfa} {l l' : Lexicon} {front pairs pairs' : List (String × Fragment)}

/-- Defines the tokens one after the other, given by their names and fragments. -/
def defineAll (l : Lexicon) (pairs : List (String × Fragment)) : Except DefinitionError Lexicon :=
  pairs.foldlM (fun l p => l.define p.1 p.2) l

/-- The lexicon has the arena, with the exits of the pairs stamped and nothing else, and
the entries of the pairs in order. -/
structure Defines (n : Nfa) (pairs : List (String × Fragment)) (l : Lexicon) : Prop where
  size : l.nfa.size = n.size
  edges : ∀ id, l.nfa.edgesOf id = n.edgesOf id
  epsilon : ∀ id, l.nfa.epsilonOf id = n.epsilonOf id
  entries : (l.definitions.map fun d => d.fragment.start) = pairs.map fun p => p.2.start
  stamped : ∀ id, (l.nfa.stampOf id).isSome = true ↔ ∃ p ∈ pairs, p.2.accept = id

theorem defines_nil (hn : ∀ id, n.stampOf id = none) : Defines n [] ⟨n, []⟩ := by
  refine ⟨rfl, fun _ => rfl, fun _ => rfl, rfl, fun id => ?_⟩
  simp [hn id]

/-- A definition whose exit is not used by another one is not refused. -/
theorem Defines.define (h : Defines n front l) {p : String × Fragment}
    (haccept : p.2.accept < n.size) (hnew : ∀ q ∈ front, q.2.accept ≠ p.2.accept) :
    ∃ l', l.define p.1 p.2 = .ok l' ∧ Defines n (front ++ [p]) l' := by
  have hlt : p.2.accept < l.nfa.size := h.size ▸ haccept
  have hunstamped : l.nfa.stampOf p.2.accept = none := by
    rw [← Option.not_isSome_iff_eq_none, h.stamped]
    rintro ⟨q, hq, heq⟩
    exact hnew q hq heq
  refine ⟨l.declare p.1 p.2, define_of_unstamped hlt hunstamped p.1, ?_⟩
  refine ⟨?_, fun id => ?_, fun id => ?_, ?_, fun id => ?_⟩
  · exact (size_stamp _ _ _).trans h.size
  · exact (edgesOf_stamp _ _ _ id).trans (h.edges id)
  · exact (epsilonOf_stamp _ _ _ id).trans (h.epsilon id)
  · simp only [declare, List.map_append, h.entries, List.map_cons, List.map_nil]
  · simp only [declare, stampOf_stamp, List.mem_append, List.mem_singleton, or_and_right,
      exists_or, exists_eq_left, ← h.stamped]
    by_cases hid : p.2.accept = id
    · subst hid
      simp [hlt]
    · simp [hid]

theorem Defines.defineAll (h : Defines n front l)
    (haccept : ∀ p ∈ pairs, p.2.accept < n.size)
    (hdistinct : ((front ++ pairs).map fun p => p.2.accept).Nodup) :
    ∃ l', l.defineAll pairs = .ok l' ∧ Defines n (front ++ pairs) l' := by
  induction pairs generalizing front l with
  | nil =>
    rw [List.append_nil]
    exact ⟨l, rfl, h⟩
  | cons p pairs ih =>
    obtain ⟨hp, hrest⟩ := List.forall_mem_cons.mp haccept
    have hnew : ∀ q ∈ front, q.2.accept ≠ p.2.accept := by
      intro q hq
      rw [List.map_append] at hdistinct
      exact (List.nodup_append.mp hdistinct).2.2 _ (List.mem_map_of_mem hq) _
        (List.mem_map_of_mem List.mem_cons_self)
    obtain ⟨l₁, hdefine, h₁⟩ := h.define hp hnew
    have hassoc : front ++ p :: pairs = front ++ [p] ++ pairs := by
      rw [List.append_assoc, List.singleton_append]
    rw [hassoc] at hdistinct ⊢
    obtain ⟨l', hall, h'⟩ := ih h₁ hrest hdistinct
    refine ⟨l', ?_, h'⟩
    rw [Lexicon.defineAll, List.foldlM_cons, hdefine]
    exact hall

/-- With its root, a lexicon has an outline that does not depend on the order of the
definitions. -/
theorem Defines.sameOutline_rooted (h : Defines n pairs l) (h' : Defines n pairs' l')
    (hperm : pairs.Perm pairs') : l.rooted.nfa.SameOutline l'.rooted.nfa := by
  have hsize : l.nfa.size = l'.nfa.size := h.size.trans h'.size.symm
  constructor
  · rw [size_rooted, size_rooted, hsize]
  · intro id
    rw [edgesOf_rooted, edgesOf_rooted, h.edges, h'.edges]
  · intro id target
    rw [epsilonOf_rooted, epsilonOf_rooted, hsize, h.epsilon, h'.epsilon, h.entries, h'.entries]
    split
    · exact (hperm.map _).mem_iff
    · rfl
  · intro id
    rw [stampOf_rooted, stampOf_rooted, Bool.eq_iff_iff, h.stamped, h'.stamped]
    simp only [hperm.mem_iff]

theorem Defines.closed_rooted (h : Defines n pairs l) (hn : n.Closed)
    (hstart : ∀ p ∈ pairs, p.2.start < n.size) : l.rooted.nfa.Closed := by
  apply Lexicon.closed_rooted
  · constructor
    · intro id e he
      rw [h.edges] at he
      exact h.size ▸ hn.edges id e he
    · intro id target htarget
      rw [h.epsilon] at htarget
      exact h.size ▸ hn.epsilon id target htarget
  · intro d hd
    have hmem : d.fragment.start ∈ l.definitions.map fun d => d.fragment.start :=
      List.mem_map_of_mem hd
    rw [h.entries] at hmem
    obtain ⟨p, hp, heq⟩ := List.mem_map.mp hmem
    rw [← heq, h.size]
    exact hstart p hp

end Lexicon

/-! ## Segments but for their tags -/

/-- The segments are the same, or they are lexemes that differ in their tags. -/
inductive Segment.SameOutline : Segment → Segment → Prop
  | refl (seg : Segment) : SameOutline seg seg
  | lexeme (chars : List Char) (tag tag' : Tag) :
    SameOutline (lexeme chars tag) (lexeme chars tag')

theorem Segment.SameOutline.text {seg seg' : Segment} (h : seg.SameOutline seg') :
    seg.text = seg'.text := by
  cases h <;> rfl

theorem map_text_of_sameOutline {segs segs' : List Segment}
    (h : List.Forall₂ Segment.SameOutline segs segs') :
    segs.map Segment.text = segs'.map Segment.text := by
  induction h with
  | nil => rfl
  | cons hseg _ ih => rw [List.map_cons, List.map_cons, hseg.text, ih]

variable {d e : Dfa} {s : Scanner} {segs todo : List Segment} {before u tail : List Char}

namespace Dfa

/-- A text has a verdict in both tables or in neither. -/
theorem SameOutline.verdictFrom_eq_none_iff (h : d.SameOutline e) (id : Nat) (v : List Char) :
    d.verdictFrom id v = none ↔ e.verdictFrom id v = none := by
  have hstep : d.step = e.step := funext fun id => funext fun b => h.step id b
  have hwalk : d.walkText? id v = e.walkText? id v := by
    rw [walkText?_eq_walk?, walkText?_eq_walk?, walk?, walk?, hstep]
  rw [verdictFrom, verdictFrom, hwalk]
  cases e.walkText? id v with
  | none => rfl
  | some target => exact Option.isSome_eq_isSome.mp (h.final target)

theorem SameOutline.silentBeyond (h : d.SameOutline e) {k : Nat}
    (hsilent : d.SilentBeyond d.start u k) : e.SilentBeyond e.start u k := by
  intro v hv hlen
  rw [← h.start, ← h.verdictFrom_eq_none_iff]
  exact hsilent v hv hlen

theorem SameOutline.fits (h : d.SameOutline e) {seg : Segment} {rest : List Char}
    (hfits : seg.Fits d rest) : ∃ seg', seg.SameOutline seg' ∧ seg'.Fits e rest := by
  cases seg with
  | blank c => exact ⟨_, .refl _, hfits⟩
  | block body => exact ⟨_, .refl _, hfits⟩
  | line body => exact ⟨_, .refl _, hfits⟩
  | stray c => exact ⟨_, .refl _, hfits.1, h.silentBeyond hfits.2⟩
  | lexeme chars tag =>
    obtain ⟨hne, hprintable, hbare, hverdict, hsilent⟩ := hfits
    cases hverdict' : e.verdict chars with
    | none =>
      rw [verdict, ← h.start, ← h.verdictFrom_eq_none_iff] at hverdict'
      rw [verdict, hverdict'] at hverdict
      cases hverdict
    | some tag' =>
      exact ⟨.lexeme chars tag', .lexeme chars tag tag', hne, hprintable, hbare, hverdict',
        h.silentBeyond hsilent⟩

/-- With a table of the same outline a text is split alike. -/
theorem SameOutline.splits (h : d.SameOutline e) (hsplits : Splits d u segs tail) :
    ∃ segs', List.Forall₂ Segment.SameOutline segs segs' ∧ Splits e u segs' tail := by
  induction hsplits with
  | done u => exact ⟨[], .nil, .done u⟩
  | next hfits _ ih =>
    obtain ⟨seg', hseg, hfits'⟩ := h.fits hfits
    obtain ⟨segs', hsegs, hsplits'⟩ := ih
    rw [hseg.text]
    exact ⟨seg' :: segs', .cons hseg hsegs, .next hfits' hsplits'⟩

end Dfa

/-! ## What a scan goes over -/

/-- Where the parts behind two fronts begin, if the first one begins with something that
is not in the second front. -/
theorem append_cons_cases {α : Type} {xs ys xs' ys' : List α} {a b : α}
    (h : xs ++ a :: xs' = ys ++ b :: ys') (ha : a ∉ ys) :
    (xs = ys ∧ a = b ∧ xs' = ys') ∨
      ∃ between, xs = ys ++ b :: between ∧ ys' = between ++ a :: xs' := by
  rcases List.append_eq_append_iff.mp h with ⟨as, rfl, has⟩ | ⟨bs, rfl, hbs⟩
  · cases as with
    | nil =>
      obtain ⟨rfl, rfl⟩ := List.cons.inj has
      exact .inl ⟨(List.append_nil _).symm, rfl, rfl⟩
    | cons a' as =>
      obtain ⟨rfl, _⟩ := List.cons.inj has
      exact absurd (List.mem_append_right _ List.mem_cons_self) ha
  · cases bs with
    | nil =>
      obtain ⟨rfl, rfl⟩ := List.cons.inj hbs
      exact .inl ⟨List.append_nil _, rfl, rfl⟩
    | cons b' bs =>
      obtain ⟨rfl, rfl⟩ := List.cons.inj hbs
      exact .inr ⟨bs, rfl, rfl⟩

namespace Scanner

/-- The call that yields an owed token leaves the scanner where it is. -/
theorem exists_after?_of_pending (hd : d.Closed) (s : Scanner) :
    ∃ k, ∀ i, s.after? d (i + k) = ({ s with pending := none } : Scanner).after? d i := by
  cases hpending : s.pending with
  | none => exact ⟨0, fun i => by rw [← hpending]; rfl⟩
  | some t =>
    refine ⟨1, fun i => ?_⟩
    rw [after?, next?_of_closed hd, next, hpending]
    rfl

/-- The scanner comes to the end of every segment that is not trivia. -/
theorem exists_after?_of_splits (hd : d.Closed) (hpending : s.pending = none)
    (hhalted : s.halted = false) (hline : s.line = lineAfter before) {front : List Segment}
    {seg : Segment} (h : Splits d s.rest (front ++ seg :: todo) tail)
    (hend : tail = [] ∨ IsUnterminated tail) (hseg : seg.isTrivia = false) :
    ∃ i s', s.after? d i = some s' ∧ s'.rest = todo.flatMap Segment.text ++ tail ∧
      s'.line = lineAfter (before ++ (front ++ [seg]).flatMap Segment.text) := by
  -- on the number of segments in front: a call may step over any number of them
  induction hn : front.length using Nat.strongRecOn generalizing s before front with
  | ind n ih =>
    obtain ⟨trivia, more, hmore, htrivia, hcases⟩ := next_cases hpending hhalted hline h hend
    have hnot : seg ∉ trivia := by
      intro hmem
      rw [htrivia seg hmem] at hseg
      cases hseg
    have hall : seg ∈ trivia ++ more := hmore ▸ List.mem_append_right _ List.mem_cons_self
    have hmem : seg ∈ more := (List.mem_append.mp hall).resolve_left hnot
    rcases hcases with ⟨rfl, _⟩ | ⟨rfl, _⟩ |
      ⟨first, segs, rest, item, owed, rfl, hrest, _, hnext⟩
    · cases hmem
    · cases hmem
    · rcases append_cons_cases hmore hnot with ⟨rfl, rfl, rfl⟩ | ⟨between, rfl, rfl⟩
      · refine ⟨1, (s.next d).2, ?_, ?_, ?_⟩
        · rw [after?, next?_of_closed hd]
          rfl
        · rw [hnext]
          exact hrest.eq_append
        · rw [hnext, List.flatMap_append, List.flatMap_singleton, List.append_assoc]
      · have hshort : between.length < n := by
          rw [← hn, List.length_append, List.length_cons]
          omega
        obtain ⟨i, s', hafter, hrest', hline'⟩ := ih between.length hshort (s := { s with
          rest := rest
          line := lineAfter (before ++ trivia.flatMap Segment.text ++ first.text)
          pending := none }) rfl hhalted rfl hrest rfl
        obtain ⟨k, hk⟩ := exists_after?_of_pending hd (s.next d).2
        refine ⟨i + k + 1, s', ?_, hrest', ?_⟩
        · rw [after?, next?_of_closed hd, Option.bind_some, hk, hnext]
          exact hafter
        · rw [hline']
          simp only [List.flatMap_append, List.flatMap_cons, List.append_assoc, List.cons_append]

end Scanner

/-- A scan of the source goes over these segments and leaves the tail: it yields what
there is to say about each of them, in order and with its line, it stops between
segments only, and it stops behind each that is not trivia. -/
structure Dfa.Consumes (d : Dfa) (source : String) (segs : List Segment) (tail : List Char) :
    Prop where
  splits : Splits d source.toList segs tail
  tail_eq : tail = [] ∨ IsUnterminated tail
  items : ∃ last, (Scanner.ofText source).drain? d =
    some (itemsAfter [] segs ++ ending (lineAfter (segs.flatMap Segment.text)) tail, last) ∧
    last.rest = tail
  between : ∀ i, ∃ s front back, (Scanner.ofText source).after? d i = some s ∧
    segs = front ++ back ∧ s.rest = back.flatMap Segment.text ++ tail ∧
    s.line = lineAfter (front.flatMap Segment.text)
  behind : ∀ front seg back, segs = front ++ seg :: back → seg.isTrivia = false →
    ∃ i s, (Scanner.ofText source).after? d i = some s ∧
      s.rest = back.flatMap Segment.text ++ tail ∧
      s.line = lineAfter ((front ++ [seg]).flatMap Segment.text)

theorem Dfa.consumes_of_splits (hd : d.Closed) {source : String}
    (h : Splits d source.toList segs tail) (hend : tail = [] ∨ IsUnterminated tail) :
    d.Consumes source segs tail := by
  refine ⟨h, hend, Scanner.drain?_of_splits hd h hend, fun i => ?_, ?_⟩
  · have hstart : (Scanner.ofText source).Stands d segs tail := ⟨[], segs, rfl, h, rfl⟩
    obtain ⟨s, hafter, front, back, hsegs, hrest, hline⟩ := hstart.after? hd hend i
    exact ⟨s, front, back, hafter, hsegs, hrest.eq_append, hline⟩
  · rintro front seg back rfl hseg
    have hline : (Scanner.ofText source).line = lineAfter [] := rfl
    exact Scanner.exists_after?_of_splits hd rfl rfl hline h hend hseg

/-! ## Two orders -/

namespace Lexicon

variable {n : Nfa} {pairs pairs' : List (String × Fragment)}

/-- The order of declaration decides about tags only. In either order all definitions go
through, and the two tables have the same start, states, origins, edges and accepting
states. With both, a scan goes over the same segments on the same lines, but for the
tags of lexemes. -/
theorem table?_sameOutline_of_perm (hn : n.Closed) (hunstamped : ∀ id, n.stampOf id = none)
    (hexist : ∀ p ∈ pairs, p.2.start < n.size ∧ p.2.accept < n.size)
    (hdistinct : (pairs.map fun p => p.2.accept).Nodup) (hperm : pairs.Perm pairs') :
    ∃ l l' d d', defineAll ⟨n, []⟩ pairs = .ok l ∧ defineAll ⟨n, []⟩ pairs' = .ok l' ∧
      l.table? = some d ∧ l'.table? = some d' ∧ d.SameOutline d' ∧
      ∀ source, ∃ segs segs' tail, d.Consumes source segs tail ∧ d'.Consumes source segs' tail ∧
        List.Forall₂ Segment.SameOutline segs segs' ∧
        ∀ k, lineAfter ((segs.take k).flatMap Segment.text) =
          lineAfter ((segs'.take k).flatMap Segment.text) := by
  have hexist' : ∀ p ∈ pairs', p.2.start < n.size ∧ p.2.accept < n.size :=
    fun p hp => hexist p (hperm.mem_iff.mpr hp)
  have hdistinct' : (pairs'.map fun p => p.2.accept).Nodup := (hperm.map _).nodup_iff.mp hdistinct
  obtain ⟨l, hall, hl⟩ := (defines_nil hunstamped).defineAll (fun p hp => (hexist p hp).2) hdistinct
  obtain ⟨l', hall', hl'⟩ :=
    (defines_nil hunstamped).defineAll (fun p hp => (hexist' p hp).2) hdistinct'
  have htable := table?_eq_table (hl.closed_rooted hn fun p hp => (hexist p hp).1)
  have htable' := table?_eq_table (hl'.closed_rooted hn fun p hp => (hexist' p hp).1)
  have hroot : l.rooted.root = l'.rooted.root := hl.size.trans hl'.size.symm
  have hsame : l.table.SameOutline l'.table :=
    RootedNfa.sameOutline_determinize hroot (hl.sameOutline_rooted hl' hperm)
  refine ⟨l, l', _, _, hall, hall', htable, htable', hsame, fun source => ?_⟩
  obtain ⟨segs, tail, hsplits, hend⟩ := exists_splits l.table source.toList
  obtain ⟨segs', hsegs, hsplits'⟩ := hsame.splits hsplits
  refine ⟨segs, segs', tail, Dfa.consumes_of_splits l.rooted.determinize_closed hsplits hend,
    Dfa.consumes_of_splits l'.rooted.determinize_closed hsplits' hend, hsegs, fun k => ?_⟩
  rw [List.flatMap_def, List.flatMap_def, List.map_take, List.map_take,
    map_text_of_sameOutline hsegs]

/-- Two states that lead over the letter `a` to one state each. -/
def twins : Nfa where
  states := #[{ edges := [(97, 1)] }, {}, { edges := [(97, 3)] }, {}]

/-- Two tokens for the letter `a`. The order decides which of the two has the lower rank,
and the tables have one outline. -/
theorem table?_sameOutline_of_perm_twins : twins.Closed ∧
    ∃ l l' d d', defineAll ⟨twins, []⟩ [("x", ⟨0, 1⟩), ("y", ⟨2, 3⟩)] = .ok l ∧
      defineAll ⟨twins, []⟩ [("y", ⟨2, 3⟩), ("x", ⟨0, 1⟩)] = .ok l' ∧
      l.nfa.stampOf 1 = some ⟨"x", 1⟩ ∧ l'.nfa.stampOf 1 = some ⟨"x", 2⟩ ∧
      l.table? = some d ∧ l'.table? = some d' ∧ d.SameOutline d' := by
  have hn : twins.Closed := by decide
  have hunstamped : ∀ id, twins.stampOf id = none := by
    intro id
    by_cases hid : id < twins.size
    · exact (show ∀ id < twins.size, twins.stampOf id = none by decide) id hid
    · exact Nfa.stampOf_eq_none_of_size_le (Nat.le_of_not_lt hid)
  have hperm : List.Perm [("x", (⟨0, 1⟩ : Fragment)), ("y", ⟨2, 3⟩)]
      [("y", ⟨2, 3⟩), ("x", ⟨0, 1⟩)] := .swap _ _ _
  obtain ⟨l, l', d, d', hl, hl', hd, hd', hsame, _⟩ :=
    table?_sameOutline_of_perm hn hunstamped (by decide) (by decide) hperm
  have hstamp : l.nfa.stampOf 1 = some ⟨"x", 1⟩ := by
    cases hl
    rfl
  have hstamp' : l'.nfa.stampOf 1 = some ⟨"x", 2⟩ := by
    cases hl'
    rfl
  exact ⟨hn, l, l', d, d', hl, hl', hstamp, hstamp', hd, hd', hsame⟩

end Lexicon

end Munch
