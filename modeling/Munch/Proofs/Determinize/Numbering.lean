import Mathlib.Data.List.Shortlex
import Munch.Proofs.Determinize

/-!
# States are numbered in shortlex order

The subset construction explores states in the order in which they are found, and
the symbols of each in ascending order. So edges are written in ascending order of
their place, by state and then by symbol, and each state is found over the first
edge that leads to it: the table is `Dfa.BreadthFirst`. That is an invariant of the
construction (`Nfa.Numbers`): one symbol keeps it, so a round keeps it, so the whole
search keeps it.

The rest follows from the finished table alone. `Dfa.AccessWord` follows the edges
over which states were found back to the start. Of all words that lead to a state or
to a later one it is the least in shortlex order (`AccessWord.le_of_walk?`), so it is
the least word of its state, and states are numbered by their least words.
-/

namespace Munch

/-! ## Shortlex order -/

section Shortlex

variable {α : Type} {r : α → α → Prop} {u v : List α}

/-- What is appended to words of one length does not change their order. -/
theorem lex_append_of_length_eq (h : List.Lex r u v) (hlength : u.length = v.length)
    (s t : List α) : List.Lex r (u ++ s) (v ++ t) := by
  induction h with
  | nil => cases hlength
  | cons _ ih => exact .cons (ih (Nat.succ.inj hlength))
  | rel h => exact .rel h

theorem shortlex_concat (h : List.Shortlex r u v) (a b : α) :
    List.Shortlex r (u ++ [a]) (v ++ [b]) := by
  rcases List.shortlex_def.mp h with hlt | ⟨heq, hlex⟩
  · apply List.Shortlex.of_length_lt
    simpa using hlt
  · apply List.Shortlex.of_lex
    · simpa using heq
    · exact lex_append_of_length_eq hlex heq _ _

theorem shortlex_concat_of_rel {a b : α} (h : r a b) (u : List α) :
    List.Shortlex r (u ++ [a]) (u ++ [b]) :=
  List.Shortlex.append_left ((List.shortlex_singleton_iff a b).mpr h) u

end Shortlex

theorem Alphabet.pairwise_symbols : Alphabet.symbols.Pairwise (· < ·) := by
  rw [symbols, List.pairwise_map]
  exact (List.pairwise_lt_finRange 95).imp symbol_lt_symbol

namespace Dfa

variable {d : Dfa}

/-! ## Edges in order -/

/-- The place of symbol `b` in the row of `p` is before that of `c` in the row of `q`. -/
def EdgeBefore (p : Nat) (b : UInt8) (q : Nat) (c : UInt8) : Prop :=
  p < q ∨ p = q ∧ b < c

theorem edgeBefore_trichotomy (p : Nat) (b : UInt8) (q : Nat) (c : UInt8) :
    EdgeBefore p b q c ∨ (p = q ∧ b = c) ∨ EdgeBefore q c p b := by
  simp only [EdgeBefore, UInt8.lt_iff_toNat_lt, ← UInt8.toNat_inj]
  omega

theorem EdgeBefore.asymm {p q : Nat} {b c : UInt8} (h : EdgeBefore p b q c) :
    ¬EdgeBefore q c p b := by
  simp only [EdgeBefore, UInt8.lt_iff_toNat_lt] at h ⊢
  omega

/-- The edge of `c` out of `p` is the one over which `id` is found: it comes from an
earlier state, and all edges before it lead to earlier states. -/
structure FoundOver (d : Dfa) (id p : Nat) (c : UInt8) : Prop where
  step : d.step p c = some id
  lt : p < id
  first : ∀ q b target, d.step q b = some target → EdgeBefore q b p c → target < id

/-- Every state but the first is found over some edge. -/
def BreadthFirst (d : Dfa) : Prop :=
  ∀ id < d.size, id ≠ 0 → ∃ p c, d.FoundOver id p c

/-! ## Access words -/

/-- The symbols of the edges over which a state, and the states on the way to it, are
found. -/
inductive AccessWord (d : Dfa) : Nat → List UInt8 → Prop
  | start : AccessWord d 0 []
  | next {p id : Nat} {c : UInt8} {w : List UInt8} :
    AccessWord d p w → d.FoundOver id p c → AccessWord d id (w ++ [c])

theorem BreadthFirst.exists_accessWord (h : d.BreadthFirst) {id : Nat} (hid : id < d.size) :
    ∃ w, d.AccessWord id w := by
  induction id using Nat.strongRecOn with
  | ind id ih =>
    by_cases hzero : id = 0
    · exact ⟨[], hzero ▸ .start⟩
    · obtain ⟨p, c, hfound⟩ := h id hid hzero
      obtain ⟨w, hw⟩ := ih p hfound.lt (Nat.lt_trans hfound.lt hid)
      exact ⟨w ++ [c], .next hw hfound⟩

theorem walk?_concat (d : Dfa) (id : Nat) (w : List UInt8) (c : UInt8) :
    d.walk? id (w ++ [c]) = (d.walk? id w).bind (d.step · c) := by
  unfold walk?
  rw [List.foldlM_append]
  simp

/-- An access word leads to its state. -/
theorem AccessWord.walk? {id : Nat} {w : List UInt8} (h : d.AccessWord id w) :
    d.walk? 0 w = some id := by
  induction h with
  | start => rfl
  | next _ hfound ih => rw [walk?_concat, ih, Option.bind_some, hfound.step]

/-- The access word of a state is less than every other word that leads to the state
or to a later one. -/
theorem AccessWord.le_of_walk? {i j : Nat} {w u : List UInt8} (hw : d.AccessWord i w)
    (hu : d.walk? 0 u = some j) (hij : i ≤ j) :
    (w = u ∧ i = j) ∨ List.Shortlex (· < ·) w u := by
  -- on the other word from its end, for both states: its last edge is not before the
  -- one over which the state is found, and what leads to the two edges is in order
  induction u using List.reverseRecOn generalizing i j w with
  | nil =>
    obtain rfl := Option.some.inj hu
    obtain rfl := Nat.le_zero.mp hij
    cases hw with
    | start => exact .inl ⟨rfl, rfl⟩
    | next _ hfound => exact absurd hfound.lt (Nat.not_lt_zero _)
  | append_singleton v c ih =>
    rw [walk?_concat, Option.bind_eq_some_iff] at hu
    obtain ⟨q, hv, hstep⟩ := hu
    cases hw with
    | start => exact .inr (.of_length_lt (by simp))
    | @next p _ b w hw hfound =>
      rcases edgeBefore_trichotomy p b q c with (hpq | ⟨rfl, hbc⟩) | ⟨rfl, rfl⟩ | hafter
      · rcases ih hw hv (Nat.le_of_lt hpq) with ⟨_, heq⟩ | hlt
        · exact absurd heq (Nat.ne_of_lt hpq)
        · exact .inr (shortlex_concat hlt b c)
      · rcases ih hw hv (Nat.le_refl p) with ⟨rfl, _⟩ | hlt
        · exact .inr (shortlex_concat_of_rel hbc w)
        · exact .inr (shortlex_concat hlt b c)
      · rcases ih hw hv (Nat.le_refl p) with ⟨rfl, _⟩ | hlt
        · exact .inl ⟨rfl, Option.some.inj (hfound.step.symm.trans hstep)⟩
        · exact .inr (shortlex_concat hlt b b)
      · exact absurd (hfound.first q c j hstep hafter) (Nat.not_lt.mpr hij)

/-- A word of printable symbols that leads to the state, and the least of those in
shortlex order. -/
structure LeastWord (d : Dfa) (id : Nat) (w : List UInt8) : Prop where
  printable : ∀ b ∈ w, 32 ≤ b.toNat ∧ b.toNat ≤ 126
  walk : d.walk? d.start w = some id
  least : ∀ u, (∀ b ∈ u, 32 ≤ b.toNat ∧ b.toNat ≤ 126) → d.walk? d.start u = some id →
    w = u ∨ List.Shortlex (· < ·) w u

theorem AccessWord.leastWord (hstart : d.start = 0) {id : Nat} {w : List UInt8}
    (hw : d.AccessWord id w) : d.LeastWord id w := by
  refine ⟨fun b hb => ?_, hstart ▸ hw.walk?, fun u _ hu => ?_⟩
  · exact Alphabet.mem_symbols.mp (Nfa.mem_symbols_of_walk? hw.walk? b hb)
  · rw [hstart] at hu
    rcases hw.le_of_walk? hu (Nat.le_refl id) with ⟨heq, _⟩ | hlt
    · exact .inl heq
    · exact .inr hlt

/-- The least word of a state is its access word. -/
theorem LeastWord.eq (hstart : d.start = 0) {id : Nat} {u w : List UInt8}
    (hu : d.LeastWord id u) (hw : d.AccessWord id w) : u = w := by
  have hw' := hw.leastWord hstart
  rcases hu.least w hw'.printable hw'.walk with heq | hlt
  · exact heq
  · rcases hw'.least u hu.printable hu.walk with heq | hgt
    · exact heq.symm
    · exact absurd hgt (Std.Asymm.asymm _ _ hlt)

end Dfa

/-! ## The construction finds states in order -/

namespace Nfa

variable {n : Nfa} {d : Dfa} {current : Nat} {b : UInt8} {bs : List UInt8}

/-- What one symbol does: nothing, or it writes its own edge, to a state that exists or
to one that is appended. -/
theorem exploreSymbol_cases (hcur : current < d.size) (hb : b ∈ Alphabet.symbols) :
    n.exploreSymbol current d b = d ∨
      ∃ target, (target < d.size ∧ (n.exploreSymbol current d b).size = d.size ∨
          target = d.size ∧ (n.exploreSymbol current d b).size = d.size + 1) ∧
        ∀ q c, (n.exploreSymbol current d b).step q c =
          if current = q ∧ b = c then some target else d.step q c := by
  by_cases hmove : n.move (d.originOf current) b = []
  · exact .inl (exploreSymbol_of_move_eq_nil hmove)
  · rw [exploreSymbol_of_move_ne_nil hmove]
    rcases d.insert_cases (n.advance (d.originOf current) b)
      (n.bestStamp (n.advance (d.originOf current) b)) with ⟨id, hid, _, heq⟩ | ⟨_, heq⟩
    · refine .inr ⟨id, .inl ⟨hid, ?_⟩, fun q c => ?_⟩
      · simp only [heq, Dfa.size_link]
      · simp only [heq, Dfa.step_link hcur hb]
    · have hcur' : ∀ s, current < (d.append s).size := by
        intro s
        rw [Dfa.size_append]
        exact Nat.lt_succ_of_lt hcur
      refine .inr ⟨d.size, .inr ⟨rfl, ?_⟩, fun q c => ?_⟩
      · simp only [heq, Dfa.size_link, Dfa.size_append]
      · -- the row of the new state is empty, so it adds no edge of its own
        simp only [heq, Dfa.step_link (hcur' _) hb, Dfa.step_append_emptyRow]

/-- The table is breadth-first, and its edges are those of states before `current` and,
out of `current`, of symbols before all of `bs`. -/
structure Numbers (d : Dfa) (current : Nat) (bs : List UInt8) : Prop where
  breadthFirst : d.BreadthFirst
  written : ∀ q c target, d.step q c = some target →
    q < current ∨ q = current ∧ ∀ b ∈ bs, c < b

theorem Numbers.edgeBefore (h : Numbers d current (b :: bs)) {q target : Nat} {c : UInt8}
    (hstep : d.step q c = some target) : Dfa.EdgeBefore q c current b :=
  (h.written q c target hstep).imp_right fun hq => ⟨hq.1, hq.2 b List.mem_cons_self⟩

/-- An edge that is written behind all others changes nothing for the states that are
found, and a state that is appended is found over it. -/
theorem Numbers.breadthFirst_exploreSymbol (h : Numbers d current (b :: bs))
    (hn : n.Tabulates d) (hcur : current < d.size) (hb : b ∈ Alphabet.symbols) :
    (n.exploreSymbol current d b).BreadthFirst := by
  rcases exploreSymbol_cases (n := n) hcur hb with heq | ⟨target, hsize, hstep⟩
  · rw [heq]
    exact h.breadthFirst
  · intro id hid hne
    by_cases hold : id < d.size
    · obtain ⟨p, c, hfound⟩ := h.breadthFirst id hold hne
      have hbefore := h.edgeBefore hfound.step
      refine ⟨p, c, ?_, hfound.lt, ?_⟩
      · rw [hstep, if_neg]
        · exact hfound.step
        · rintro ⟨rfl, rfl⟩
          exact hbefore.asymm hbefore
      · intro q c' t ht hq
        rw [hstep] at ht
        split at ht
        · rename_i heq
          obtain ⟨rfl, rfl⟩ := heq
          exact absurd hq hbefore.asymm
        · exact hfound.first q c' t ht hq
    · have hnew : id = d.size ∧ target = d.size := by omega
      obtain ⟨rfl, rfl⟩ := hnew
      refine ⟨current, b, ?_, hcur, ?_⟩
      · rw [hstep, if_pos ⟨rfl, rfl⟩]
      · intro q c' t ht hq
        rw [hstep] at ht
        split at ht
        · rename_i heq
          obtain ⟨rfl, rfl⟩ := heq
          exact absurd hq hq.asymm
        · exact (hn.step q c' t ht).1

theorem Numbers.exploreSymbol (h : Numbers d current (b :: bs)) (hn : n.Tabulates d)
    (hcur : current < d.size) (hb : b ∈ Alphabet.symbols) (hbs : ∀ c ∈ bs, b < c) :
    Numbers (n.exploreSymbol current d b) current bs := by
  have hold : ∀ q c target, d.step q c = some target →
      q < current ∨ q = current ∧ ∀ b ∈ bs, c < b := by
    intro q c target hstep
    exact (h.written q c target hstep).imp_right fun hq =>
      ⟨hq.1, fun b hb => hq.2 b (List.mem_cons_of_mem _ hb)⟩
  refine ⟨h.breadthFirst_exploreSymbol hn hcur hb, ?_⟩
  rcases exploreSymbol_cases (n := n) hcur hb with heq | ⟨target, _, hstep⟩
  · rw [heq]
    exact hold
  · intro q c t ht
    rw [hstep] at ht
    split at ht
    · rename_i heq
      obtain ⟨rfl, rfl⟩ := heq
      exact .inr ⟨rfl, hbs⟩
    · exact hold q c t ht

theorem Numbers.foldl_exploreSymbol (h : Numbers d current bs) (hn : n.Tabulates d)
    (hcur : current < d.size) (hbs : ∀ b ∈ bs, b ∈ Alphabet.symbols)
    (hsorted : bs.Pairwise (· < ·)) :
    Numbers (bs.foldl (n.exploreSymbol current) d) current [] := by
  induction bs generalizing d with
  | nil => exact h
  | cons b bs ih =>
    obtain ⟨hb, hrest⟩ := List.forall_mem_cons.mp hbs
    obtain ⟨hlater, hsorted⟩ := List.pairwise_cons.mp hsorted
    obtain ⟨hn', hext, _⟩ := hn.exploreSymbol hcur hb
    exact ih (h.exploreSymbol hn hcur hb hlater) hn' (Nat.lt_of_lt_of_le hcur hext.size_le) hrest
      hsorted

/-- A round leaves the edges of the states up to the explored one. -/
theorem Numbers.explore (h : Numbers d current Alphabet.symbols) (hn : n.Tabulates d)
    (hcur : current < d.size) : Numbers (n.explore d current) (current + 1) Alphabet.symbols := by
  have hround : Numbers (n.explore d current) current [] :=
    h.foldl_exploreSymbol hn hcur (fun b hb => hb) Alphabet.pairwise_symbols
  refine ⟨hround.breadthFirst, fun q c target hstep => .inl ?_⟩
  rcases hround.written q c target hstep with hq | ⟨rfl, _⟩
  · exact Nat.lt_succ_of_lt hq
  · exact Nat.lt_succ_self q

theorem Numbers.saturate (h : Numbers d current Alphabet.symbols) (hn : n.Tabulates d)
    (rounds : Nat) : (n.saturate rounds current d).BreadthFirst := by
  induction rounds generalizing current d with
  | zero => exact h.breadthFirst
  | succ rounds ih =>
    unfold Nfa.saturate
    by_cases hcur : current < d.size
    · rw [if_pos hcur]
      exact ih (h.explore hn hcur) (hn.explore hcur).1
    · rw [if_neg hcur]
      exact h.breadthFirst

end Nfa

namespace RootedNfa

open Nfa

theorem seed_numbers (r : RootedNfa) : Numbers r.seed 0 Alphabet.symbols := by
  rw [seed_eq]
  refine ⟨fun id hid hne => ?_, fun q c target hstep => ?_⟩
  · rw [Dfa.size_append, Dfa.size_empty] at hid
    omega
  · rw [Dfa.step_append_emptyRow] at hstep
    exact absurd (Dfa.of_step_eq_some hstep).1 (Nat.not_lt_zero q)

theorem determinize_breadthFirst (r : RootedNfa) : r.determinize.BreadthFirst :=
  r.seed_numbers.saturate r.seed_tabulates _

/-- The numbers of states are canonical: the start is the first, every state is the end
of some word, and states are numbered by the shortlex order of their least words. -/
theorem determinize_shortlex (r : RootedNfa) (hroot : r.root < r.nfa.size)
    (hn : r.nfa.Closed) :
    ∃ d, r.determinize? = some d ∧ d.start = 0 ∧ (∀ id < d.size, ∃ w, d.LeastWord id w) ∧
      ∀ i j u w, i < j → j < d.size → d.LeastWord i u → d.LeastWord j w →
        List.Shortlex (· < ·) u w := by
  have hwords : ∀ id < r.determinize.size, ∃ w, r.determinize.AccessWord id w :=
    fun id hid => r.determinize_breadthFirst.exists_accessWord hid
  have hstart := r.start_determinize
  refine ⟨r.determinize, determinize?_eq_determinize hroot hn, hstart, fun id hid => ?_, ?_⟩
  · obtain ⟨w, hw⟩ := hwords id hid
    exact ⟨w, hw.leastWord hstart⟩
  · intro i j u w hij hj hu hw
    obtain ⟨u', hu'⟩ := hwords i (Nat.lt_trans hij hj)
    obtain ⟨w', hw'⟩ := hwords j hj
    rw [hu.eq hstart hu', hw.eq hstart hw']
    rcases hu'.le_of_walk? hw'.walk? (Nat.le_of_lt hij) with ⟨_, heq⟩ | hlt
    · exact absurd heq (Nat.ne_of_lt hij)
    · exact hlt

/-- Two letters lead to two ends, and the edge of the greater letter is written first. -/
def fork : RootedNfa where
  nfa := ⟨#[{ edges := [(98, 1), (97, 2)] }, {}, {}]⟩
  root := 0
  definitions := []

theorem le_of_step_fork {id target : Nat} {c : UInt8}
    (hstep : fork.determinize.step id c = some target) : 97 ≤ c := by
  obtain ⟨q, hq⟩ := List.exists_mem_of_ne_nil _ (fork.determinize_tableOf.step _ c _ hstep).2.1
  obtain ⟨p, _, hedge⟩ := mem_move.mp hq
  rcases p with _ | _ | _ | p
  · rcases List.mem_pair.mp hedge with heq | heq
    · cases heq
      decide
    · cases heq
      decide
  · cases hedge
  · cases hedge
  · cases hedge

/-- No word before the lesser letter leads anywhere but to the start, so the letter leads
to the second state. -/
theorem determinize_shortlex_fork : fork.root < fork.nfa.size ∧ fork.nfa.Closed ∧
    ∃ d, fork.determinize? = some d ∧ d.walk? d.start [97] = some 1 := by
  have hroot : fork.root < fork.nfa.size := by decide
  have hn : fork.nfa.Closed := by decide
  have htable := fork.determinize_tableOf
  obtain ⟨d, hd, hstart, hwords, hordered⟩ := determinize_shortlex fork hroot hn
  obtain rfl := Option.some.inj ((determinize?_eq_determinize hroot hn).symm.trans hd)
  have hshort : ∀ u j, fork.determinize.walk? fork.determinize.start u = some j →
      List.Shortlex (· < ·) u [97] → j = 0 := by
    rintro (_ | ⟨c, _ | ⟨_, _⟩⟩) j hu hless
    · rw [← Option.some.inj hu, hstart]
    · rw [walk?_cons, Option.bind_eq_some_iff] at hu
      obtain ⟨target, hstep, _⟩ := hu
      exact absurd ((List.shortlex_singleton_iff c 97).mp hless)
        (UInt8.not_lt.mpr (le_of_step_fork hstep))
    · rcases List.shortlex_def.mp hless with hlength | ⟨hlength, _⟩
      · simp at hlength
      · simp at hlength
  have hrun : 2 ∈ fork.nfa.run fork.root [97] :=
    mem_run.mpr ⟨by decide, .edge (List.mem_cons_of_mem _ (List.mem_singleton_self _)) (.nil 2)⟩
  obtain ⟨id, hid⟩ := htable.exists_walk?_start
    (List.forall_mem_singleton.mpr (Alphabet.mem_symbols.mpr (by decide)))
    (List.ne_nil_of_mem hrun)
  obtain ⟨hlt, _, horigin, _⟩ := htable.walk?_start hid
  have hne : id ≠ 0 := by
    rintro rfl
    -- the second end is not among the states that the root reaches for free
    rw [← horigin, ← hstart, htable.start_origin, mem_closure] at hrun
    obtain ⟨_, s, hs, hreach⟩ := hrun
    obtain rfl := List.mem_singleton.mp hs
    rcases hreach.cases_head with heq | ⟨q, hq, _⟩
    · cases heq
    · cases hq
  have hle : id ≤ 1 := by
    -- else the second state would have a word less than the letter
    by_contra hlater
    obtain ⟨u, hu⟩ := hwords id hlt
    obtain ⟨w, hw⟩ := hwords 1 (by omega)
    have hwu := hordered 1 id w u (by omega) hlt hw hu
    rcases hu.least [97] (List.forall_mem_singleton.mpr (by decide)) hid with rfl | hless
    · exact absurd (hshort w 1 hw.walk hwu) (by decide)
    · exact hne (hshort u id hu.walk hless)
  obtain rfl : id = 1 := by omega
  exact ⟨hroot, hn, _, hd, hid⟩

end RootedNfa

end Munch
