import Mathlib.Data.List.FinRange
import Munch.Dfa.Listing
import Munch.Proofs.Dfa.View
import Munch.Proofs.Json.Literal

/-!
# Listings lose nothing

`Dfa.transitions` has every edge of a table once, by state and then by symbol
(`mem_transitions`, `pairwise_transitions`). The text of the listing can be read back:
neither a number nor a label holds a tab or a newline, so these divide a line in one way
only, and the text into lines (`line_append_inj`, `lines_inj`). So two tables with the
same listing have the same edges.
-/

namespace Munch

namespace Dfa

variable {d e : Dfa}

/-! ## The edges in order -/

theorem mem_rowTransitions {source : Nat} {row : Row} {t : Transition} :
    t ∈ rowTransitions source row ↔
      t.source = source ∧ ∃ i, Alphabet.symbol i = t.symbol ∧ row.get i = some t.target := by
  obtain ⟨tsource, tsymbol, ttarget⟩ := t
  simp only [rowTransitions, List.mem_filterMap, List.mem_finRange, true_and,
    Option.map_eq_some_iff, Transition.mk.injEq]
  constructor
  · rintro ⟨i, target, hentry, rfl, hsymbol, rfl⟩
    exact ⟨rfl, i, hsymbol, hentry⟩
  · rintro ⟨rfl, i, hsymbol, hentry⟩
    exact ⟨i, ttarget, hentry, rfl, hsymbol, rfl⟩

/-- The listing has exactly the edges of the table. -/
theorem mem_transitions {t : Transition} :
    t ∈ d.transitions ↔ d.step t.source t.symbol = some t.target := by
  have hstate : ∀ s id, (s, id) ∈ d.states.toList.zipIdx ↔ d.state? id = some s := by
    intro s id
    rw [List.mem_zipIdx_iff_getElem?, Array.getElem?_toList]
    rfl
  rw [step_eq_some_iff, transitions, List.mem_flatMap]
  constructor
  · rintro ⟨⟨s, id⟩, hmem, ht⟩
    obtain ⟨rfl, i, hsymbol, hentry⟩ := mem_rowTransitions.mp ht
    exact ⟨s, i, (hstate s _).mp hmem, hsymbol, hentry⟩
  · rintro ⟨s, i, hs, hsymbol, hentry⟩
    exact ⟨(s, t.source), (hstate s _).mpr hs, mem_rowTransitions.mpr ⟨rfl, i, hsymbol, hentry⟩⟩

theorem pairwise_rowTransitions (source : Nat) (row : Row) :
    (rowTransitions source row).Pairwise fun t u => t.symbol < u.symbol := by
  rw [rowTransitions, List.pairwise_filterMap]
  apply (List.pairwise_lt_finRange 95).imp
  intro i j hij t ht u hu
  obtain ⟨_, _, rfl⟩ := Option.map_eq_some_iff.mp ht
  obtain ⟨_, _, rfl⟩ := Option.map_eq_some_iff.mp hu
  exact Alphabet.symbol_lt_symbol hij

/-- The edges ascend by state and then by symbol. -/
theorem pairwise_transitions (d : Dfa) : d.transitions.Pairwise fun t u =>
    t.source < u.source ∨ t.source = u.source ∧ t.symbol < u.symbol := by
  rw [transitions, List.pairwise_flatMap]
  constructor
  · rintro ⟨s, id⟩ _
    refine (pairwise_rowTransitions id s.row).imp_of_mem fun ht hu hlt => .inr ⟨?_, hlt⟩
    rw [(mem_rowTransitions.mp ht).1, (mem_rowTransitions.mp hu).1]
  · have hids : (d.states.toList.zipIdx.map Prod.snd).Pairwise (· < ·) := by
      rw [List.zipIdx_map_snd]
      exact List.pairwise_lt_range'
    apply (List.pairwise_map.mp hids).imp
    intro p q hpq t ht u hu
    rw [(mem_rowTransitions.mp ht).1, (mem_rowTransitions.mp hu).1]
    exact .inl hpq

theorem nodup_transitions (d : Dfa) : d.transitions.Nodup := by
  apply d.pairwise_transitions.imp
  rintro t u hlt rfl
  rcases hlt with hlt | ⟨_, hlt⟩
  · exact Nat.lt_irrefl _ hlt
  · exact UInt8.lt_irrefl _ hlt

end Dfa

/-! ## Lines that can be read back -/

/-- Two texts that are equal are equal up to the first stop and behind it. -/
theorem eq_of_append_stop {stop : Char} {u v s t : List Char} (hu : stop ∉ u) (hv : stop ∉ v)
    (h : u ++ stop :: s = v ++ stop :: t) : u = v ∧ s = t := by
  have hplain : ∀ {w : List Char}, stop ∉ w → ∀ c ∈ w, (c != stop) = true := by
    intro w hw c hc
    rw [bne_iff_ne]
    exact fun heq => hw (heq ▸ hc)
  have huv : u = v := by
    rw [← (split_at_end (hplain hu) (bne_self_eq_false stop) s).1, h,
      (split_at_end (hplain hv) (bne_self_eq_false stop) t).1]
  subst huv
  exact ⟨rfl, (List.cons.inj (List.append_cancel_left h)).2⟩

namespace Alphabet

/-- The label of a symbol other than the space is the character of that code. -/
theorem label_of_ne_space {b : UInt8} (hb : b ∈ symbols) (hspace : b ≠ 32) :
    ∃ c : Char, c.toNat = b.toNat ∧ label b = String.singleton c := by
  have hrange := mem_symbols.mp hb
  have hnewline : b ≠ 10 := by
    rintro rfl
    exact absurd hrange (by decide)
  refine ⟨Char.ofNat b.toNat, ?_, ?_⟩
  · rw [Char.ofNat, dif_pos (.inl (by omega))]
    rfl
  · rw [label, if_neg hspace, if_neg hnewline]

/-- Labels have no blanks. -/
theorem lt_toNat_of_mem_label {b : UInt8} (hb : b ∈ symbols) :
    ∀ c ∈ (label b).toList, 32 < c.toNat := by
  by_cases hspace : b = 32
  · subst hspace
    simp [label]
  · obtain ⟨c, hc, hlabel⟩ := label_of_ne_space hb hspace
    rw [hlabel, String.toList_singleton, List.forall_mem_singleton, hc]
    have hlow := (mem_symbols.mp hb).1
    have hne : b.toNat ≠ (32 : UInt8).toNat := fun heq => hspace (UInt8.toNat_inj.mp heq)
    exact Nat.lt_of_le_of_ne hlow hne.symm

/-- Different symbols have different labels. -/
theorem label_inj {b c : UInt8} (hb : b ∈ symbols) (hc : c ∈ symbols) (h : label b = label c) :
    b = c := by
  -- the label of the space is the only one of more than one character
  have hlength : ∀ {a : UInt8}, a ∈ symbols → a ≠ 32 → (label a).toList.length = 1 := by
    intro a ha hspace
    obtain ⟨x, _, hlabel⟩ := label_of_ne_space ha hspace
    rw [hlabel, String.toList_singleton, List.length_singleton]
  have hspace : (label 32).toList.length = 5 := by decide
  by_cases hb' : b = 32 <;> by_cases hc' : c = 32
  · rw [hb', hc']
  · have := hlength hc hc'
    rw [← h, hb', hspace] at this
    omega
  · have := hlength hb hb'
    rw [h, hc', hspace] at this
    omega
  · obtain ⟨x, hx, hlabel⟩ := label_of_ne_space hb hb'
    obtain ⟨y, hy, hlabel'⟩ := label_of_ne_space hc hc'
    rw [hlabel, hlabel'] at h
    have hxy : x = y := by simpa using congrArg String.toList h
    rw [← UInt8.toNat_inj, ← hx, ← hy, hxy]

end Alphabet

namespace Transition

variable {t u : Transition}

theorem toList_line (t : Transition) : t.line.toList =
    Nat.toDigits 10 t.source ++ '\t' :: ((Alphabet.label t.symbol).toList ++
      '\t' :: (Nat.toDigits 10 t.target ++ ['\n'])) := by
  have hline : t.line = toString t.source ++ "\t" ++ Alphabet.label t.symbol ++ "\t" ++
      toString t.target ++ "\n" := rfl
  simp [hline]

/-- A number ends at the stop behind it and is told by its digits. -/
theorem eq_of_toDigits_append_stop {m k : Nat} {stop : Char} {s r : List Char}
    (hstop : stop.toNat ≤ 32)
    (h : Nat.toDigits 10 m ++ stop :: s = Nat.toDigits 10 k ++ stop :: r) : m = k ∧ s = r := by
  have hdigits : ∀ j, stop ∉ Nat.toDigits 10 j := by
    intro j hmem
    have hlow := (Json.toNat_of_mem_toDigits hmem).1
    omega
  obtain ⟨hsame, hrest⟩ := eq_of_append_stop (hdigits m) (hdigits k) h
  refine ⟨?_, hrest⟩
  rw [← Nat.ofDigitChars_ten_toDigits (n := m), hsame, Nat.ofDigitChars_ten_toDigits]

/-- A line is read back from the front of a text. -/
theorem line_append_inj (ht : t.symbol ∈ Alphabet.symbols) (hu : u.symbol ∈ Alphabet.symbols)
    {s r : List Char} (h : t.line.toList ++ s = u.line.toList ++ r) : t = u ∧ s = r := by
  have hlabel : ∀ {b}, b ∈ Alphabet.symbols → '\t' ∉ (Alphabet.label b).toList := by
    intro b hb hmem
    exact absurd (Alphabet.lt_toNat_of_mem_label hb _ hmem) (by decide)
  simp only [toList_line, List.append_assoc, List.cons_append, List.nil_append] at h
  obtain ⟨hsource, h⟩ := eq_of_toDigits_append_stop (by decide) h
  obtain ⟨hsymbol, h⟩ := eq_of_append_stop (hlabel ht) (hlabel hu) h
  obtain ⟨htarget, hrest⟩ := eq_of_toDigits_append_stop (by decide) h
  refine ⟨?_, hrest⟩
  obtain ⟨source, symbol, target⟩ := t
  obtain ⟨source', symbol', target'⟩ := u
  rw [Transition.mk.injEq]
  exact ⟨hsource, Alphabet.label_inj ht hu (String.toList_inj.mp hsymbol), htarget⟩

theorem lines_inj {ts us : List Transition} (hts : ∀ t ∈ ts, t.symbol ∈ Alphabet.symbols)
    (hus : ∀ u ∈ us, u.symbol ∈ Alphabet.symbols)
    (h : ts.flatMap (·.line.toList) = us.flatMap (·.line.toList)) : ts = us := by
  have hne : ∀ t : Transition, t.line.toList ≠ [] := by
    intro t
    simp [toList_line]
  induction ts generalizing us with
  | nil =>
    cases us with
    | nil => rfl
    | cons u us => simp [hne] at h
  | cons t ts ih =>
    cases us with
    | nil => simp [hne] at h
    | cons u us =>
      rw [List.forall_mem_cons] at hts hus
      rw [List.flatMap_cons, List.flatMap_cons] at h
      obtain ⟨rfl, hrest⟩ := line_append_inj hts.1 hus.1 h
      rw [ih hts.2 hus.2 hrest]

end Transition

/-! ## Equal listings -/

namespace Dfa

variable {d e : Dfa}

theorem transitions_eq_of_listing_eq (h : d.listing = e.listing) :
    d.transitions = e.transitions := by
  have hsymbols : ∀ c : Dfa, ∀ t ∈ c.transitions, t.symbol ∈ Alphabet.symbols :=
    fun c t ht => (of_step_eq_some (mem_transitions.mp ht)).2
  unfold listing at h
  generalize "State\tInput\tNextState\n" = head at h
  have hchars := congrArg String.toList h
  simp only [String.toList_append, String.toList_join, List.flatMap_map] at hchars
  exact Transition.lines_inj (hsymbols d) (hsymbols e) (List.append_cancel_left hchars)

theorem listing_eq_of_transitions_eq (h : d.transitions = e.transitions) :
    d.listing = e.listing := by
  unfold listing
  rw [h]

/-- The listed transitions of a table are its edges, each of them once, ascending by state
and then by symbol; and tables with the same listing have the same edges. -/
theorem listing_lossless (d : Dfa) :
    (∀ t, t ∈ d.transitions ↔ d.step t.source t.symbol = some t.target) ∧
    d.transitions.Nodup ∧
    (d.transitions.Pairwise fun t u =>
      t.source < u.source ∨ t.source = u.source ∧ t.symbol < u.symbol) ∧
    ∀ e : Dfa, d.listing = e.listing → ∀ id b, d.step id b = e.step id b := by
  refine ⟨fun t => mem_transitions, d.nodup_transitions, d.pairwise_transitions, ?_⟩
  intro e h id b
  apply Option.ext
  intro target
  have hsame := transitions_eq_of_listing_eq h
  rw [← mem_transitions (t := ⟨id, b, target⟩), hsame, mem_transitions]

/-- A state with two edges, one of them over the space, and behind it a state without. -/
def gapped (origin : List Nat) (accept : Option Tag) : Dfa :=
  let d := (empty.insert origin accept).dfa
  ((d.insert [] none).dfa.setEdge 0 126 1).setEdge 0 32 12

/-- Origins, tags and the start are not listed, so tables that differ in these have the
same listing, and the same edges. -/
theorem listing_lossless_gapped :
    (gapped [1] none).transitions = [⟨0, 32, 12⟩, ⟨0, 126, 1⟩] ∧
    (gapped [1] none).listing = ((gapped [2, 5] (some ⟨"gap", 1⟩)).setStart 1).listing ∧
    ∀ id b, (gapped [1] none).step id b =
      ((gapped [2, 5] (some ⟨"gap", 1⟩)).setStart 1).step id b := by
  have hedges : (gapped [1] none).transitions = [⟨0, 32, 12⟩, ⟨0, 126, 1⟩] := by decide +kernel
  have hedges' : ((gapped [2, 5] (some ⟨"gap", 1⟩)).setStart 1).transitions =
      [⟨0, 32, 12⟩, ⟨0, 126, 1⟩] := by decide +kernel
  have hsame := listing_eq_of_transitions_eq (hedges.trans hedges'.symm)
  obtain ⟨_, _, _, hlossless⟩ := listing_lossless (gapped [1] none)
  exact ⟨hedges, hsame, hlossless _ hsame⟩

end Dfa

end Munch
