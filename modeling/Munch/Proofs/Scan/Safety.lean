import Munch.Proofs.Dfa.Saved
import Munch.Proofs.Scan.Cursor
import Munch.Proofs.Scan.Newline

/-!
# Scanning is safe

A table is safe to scan with if each of its edges leads to a state; where it
starts does not matter. The tables of the subset construction are so, and so are
those that were loaded. With such a table a scan goes from byte to byte without
a fault and ends with no more tokens than bytes, and no more diagnostics.
-/

namespace Munch

variable {d : Dfa} {segs : List Segment} {tail u : List Char}

/-- The edges of a table that can be stored lead to its states. -/
theorem Dfa.Storable.closed (h : d.Storable) : d.Closed := by
  rw [Dfa.closed_iff_forall_rows]
  intro s hs i target htarget
  have hmem : some target ∈ s.row := by
    rw [← Option.mem_def.mp htarget]
    exact Vector.getElem_mem i.isLt
  exact ((h.states s hs).edge target hmem).1

/-! ## How much a scan yields -/

/-- There are no more segments than characters. -/
theorem Splits.length_le (h : Splits d u segs tail) : segs.length + tail.length ≤ u.length := by
  induction h with
  | done u => simp
  | next hfits _ ih =>
    have hpos := List.length_pos_iff.mpr hfits.text_ne_nil
    rw [List.length_cons, List.length_append]
    omega

/-- A segment yields at most one token and at most one diagnostic. -/
theorem Segment.length_yields_le (seg : Segment) (line : Nat) :
    ((seg.yields line).filterMap Item.token?).length ≤ 1 ∧
      ((seg.yields line).filterMap Item.diagnostic?).length ≤ 1 := by
  cases seg with
  | blank => simp [yields]
  | block => simp [yields]
  | line => simp [yields]
  | stray c => exact ⟨Nat.zero_le 1, Nat.le_refl 1⟩
  | lexeme chars tag =>
    simp only [yields]
    rcases classify_cases tag.token chars line with ⟨t, h, _⟩ | ⟨e, owed, h, _⟩
    · rw [h]
      exact ⟨Nat.le_refl 1, Nat.zero_le 1⟩
    · rw [h]
      cases owed with
      | none => exact ⟨Nat.zero_le 1, Nat.le_refl 1⟩
      | some t => exact ⟨Nat.le_refl 1, Nat.le_refl 1⟩

/-- What is picked at most once for each segment is picked no more often than there
are segments. -/
theorem length_filterMap_itemsAfter_le {α : Type} {pick : Item → Option α}
    (hpick : ∀ (seg : Segment) line, ((seg.yields line).filterMap pick).length ≤ 1)
    (segs : List Segment) (before : List Char) :
    ((itemsAfter before segs).filterMap pick).length ≤ segs.length := by
  induction segs generalizing before with
  | nil => simp [itemsAfter]
  | cons seg segs ih =>
    have hseg := hpick seg (lineAfter before)
    have hsegs := ih (before ++ seg.text)
    rw [itemsAfter, List.filterMap_append, List.length_append, List.length_cons]
    omega

theorem length_ending_le (line : Nat) (tail : List Char) :
    (ending line tail).length ≤ tail.length := by
  cases tail <;> simp [ending]

theorem Dfa.length_filterMap_scan_le {α : Type} {pick : Item → Option α}
    (hpick : ∀ (seg : Segment) line, ((seg.yields line).filterMap pick).length ≤ 1)
    (d : Dfa) (source : String) :
    ((d.scan source).filterMap pick).length ≤ source.utf8ByteSize := by
  obtain ⟨segs, tail, hsplits, hend⟩ := exists_splits d source.toList
  have hitems := length_filterMap_itemsAfter_le hpick segs []
  have hending : ((ending (lineAfter (segs.flatMap Segment.text)) tail).filterMap pick).length ≤
      tail.length :=
    Nat.le_trans (List.length_filterMap_le _ _) (length_ending_le _ tail)
  calc ((d.scan source).filterMap pick).length
      ≤ segs.length + tail.length := by
        rw [scan_of_splits hsplits hend, List.filterMap_append, List.length_append]
        omega
    _ ≤ source.toList.length := hsplits.length_le
    _ ≤ Bytes.size source.toList := Bytes.length_le_size _
    _ = source.utf8ByteSize := (Bytes.utf8ByteSize_eq source).symm

/-! ## Safety -/

namespace Dfa

/-- With a table whose edges lead to states, every call of `next` returns, however many
went before. The position is never behind the end and always between characters, and
it grows with each item that is neither owed nor the end of the scan, so a scan ends.
Tables that were loaded are such tables, and so are those of the subset construction. -/
theorem scan_safe :
    (∀ d : Dfa, d.Closed → ∀ source : String,
      (∀ n, ∃ before s, (Scanner.ofText source).after? d n = some s ∧
        source.toList = before ++ s.rest ∧ Cursor.after d source n {} = .ok (s.cursor before) ∧
        (s.cursor before).pos ≤ source.utf8ByteSize ∧
        String.Pos.Raw.IsValid source ⟨(s.cursor before).pos⟩ ∧
        ∃ item before' s', s.next? d = some (item, s') ∧
          (s.cursor before).next d source = .ok (item, s'.cursor before') ∧
          ((s.cursor before).pending = none → ∀ i, item = some i → i.isFatal = false →
            (s.cursor before).pos < (s'.cursor before').pos)) ∧
      ∃ out, d.tokenize? source = some out ∧ out.tokens.length ≤ source.utf8ByteSize ∧
        out.errors.length ≤ source.utf8ByteSize) ∧
    (∀ data d, ofBytes data = .ok d → d.Closed) ∧
    ∀ r : RootedNfa, r.root < r.nfa.size → r.nfa.Closed →
      ∃ d, r.determinize? = some d ∧ d.Closed := by
  refine ⟨fun d hd source => ⟨fun n => ?_, ?_⟩, ?_, ?_⟩
  · have hstart : source.toList = [] ++ (Scanner.ofText source).rest := rfl
    obtain ⟨before, s, hafter, hrest, hcursor⟩ := Scanner.cursor_after hd hstart n
    have hsource : source.toList = before ++ s.rest := hrest
    obtain ⟨more, item, s', hnext, hmore, hcall, hprogress⟩ := Scanner.cursor_next hd hsource
    have hvalid := Bytes.isValid_size hsource
    refine ⟨before, s, hafter, hsource, hcursor, hvalid.le_utf8ByteSize, hvalid, item,
      before ++ more, s', hnext, hcall, fun hpending i hi hfatal => ?_⟩
    have hpos := List.length_pos_iff.mpr (hprogress hpending i hi hfatal)
    have hsize := Bytes.length_le_size more
    show Bytes.size before < Bytes.size (before ++ more)
    rw [Bytes.size_append]
    omega
  · exact ⟨_, tokenize?_of_closed hd source,
      length_filterMap_scan_le (fun seg line => (seg.length_yields_le line).1) d source,
      length_filterMap_scan_le (fun seg line => (seg.length_yields_le line).2) d source⟩
  · exact fun data d h => (storable_of_ofBytes h).closed
  · exact fun r hroot hn =>
      ⟨_, RootedNfa.determinize?_eq_determinize hroot hn, r.determinize_closed⟩

/-- Two calls over a character of two bytes, a comment with another one, and a letter
that is reported and then owed: the position is behind all nine bytes. The table of
`shuffled` and that of `rivals` are closed, too. -/
theorem scan_safe_two_calls :
    (mislabelled.Closed ∧
      Cursor.after mislabelled "é/*ß*/a" 2 {} =
        .ok { pos := 9, pending := some ⟨Kind.decimalLiteral, "a", 1⟩ } ∧
      String.Pos.Raw.IsValid "é/*ß*/a" ⟨9⟩ ∧
      ∃ out, mislabelled.tokenize? "é/*ß*/a" = some out ∧ out.errors.length ≤ 9) ∧
    (ofBytes shuffled.toJson.render = .ok unshuffled ∧ unshuffled.Closed) ∧
    RootedNfa.rivals.root < RootedNfa.rivals.nfa.size ∧ RootedNfa.rivals.nfa.Closed ∧
      ∃ d, RootedNfa.rivals.determinize? = some d ∧ d.Closed := by
  obtain ⟨hscan, hloaded, hbuilt⟩ := scan_safe
  have hclosed : mislabelled.Closed := by decide +kernel
  have hroot : RootedNfa.rivals.root < RootedNfa.rivals.nfa.size := by decide
  have hn : RootedNfa.rivals.nfa.Closed := by decide
  obtain ⟨hcalls, out, hout, _, herrors⟩ := hscan mislabelled hclosed "é/*ß*/a"
  obtain ⟨before, s, hafter, hsource, hcursor, _, hvalid, _⟩ := hcalls 2
  have hplace : (Scanner.ofText "é/*ß*/a").after? mislabelled 2 =
      some { rest := [], pending := some ⟨Kind.decimalLiteral, "a", 1⟩ } := by decide +kernel
  obtain rfl := Option.some.inj (hplace.symm.trans hafter)
  rw [List.append_nil] at hsource
  subst hsource
  exact ⟨⟨hclosed, hcursor, hvalid, out, hout, herrors⟩,
    ⟨ofBytes_shuffled, hloaded _ _ ofBytes_shuffled⟩, hroot, hn, hbuilt _ hroot hn⟩

end Dfa

end Munch
