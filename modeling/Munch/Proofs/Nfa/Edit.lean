import Munch.Proofs.Nfa.Expression

/-!
# Edits of an arena

All fragments share one arena, and an operator writes ε-edges into states of its
operands, which other fragments may use as well. `Nfa.Edit` is the list of all that can
be done to an arena, and `Nfa.edit?` what it does. An edit takes nothing away, and it
adds edges out of new states and out of the few old ones that `Edit.writes` names
(`widens_of_edit?`, one case per edit); so does a sequence of edits
(`widens_of_foldlM`).

It follows that a fragment keeps its words, and that it gets no new ones as long as no
edit writes to a state that the fragment reaches.
-/

namespace Munch

/-- Whether the entry and the exit of the fragment are states of the arena. -/
def Fragment.Within (n : Nfa) (f : Fragment) : Prop :=
  f.start < n.size ∧ f.accept < n.size

instance (n : Nfa) (f : Fragment) : Decidable (f.Within n) :=
  inferInstanceAs (Decidable (_ ∧ _))

namespace Nfa

variable {n n' m : Nfa} {sites more : List Nat}

/-! ## What is done to an arena -/

/-- One act on an arena: a new state, a new edge, a stamp, or a fragment operator. -/
inductive Edit where
  | addState
  | addEdge (source : Nat) (b : UInt8) (target : Nat)
  | addEpsilon (source target : Nat)
  | stamp (id : Nat) (tag : Tag)
  | literal (b : UInt8)
  | text (bs : List UInt8)
  | oneOf (bs : List UInt8)
  | range (lo hi : UInt8)
  | anyExcept (b : UInt8)
  | anyChar
  | concat (p q : Fragment)
  | union (p q : Fragment)
  | star (p : Fragment)
  | plus (p : Fragment)

/-- The arena behind an edit, if the edit writes to existing states only. -/
def edit? (n : Nfa) : Edit → Option Nfa
  | .addState => some n.addState
  | .addEdge source b target => n.addEdge? source b target
  | .addEpsilon source target => n.addEpsilon? source target
  | .stamp id tag => (n.stamp? id tag).map Prod.snd
  | .literal b => some ((Build.literal b).run n).2
  | .text bs => some ((Build.text? bs).run n).2
  | .oneOf bs => some ((Build.oneOf? bs).run n).2
  | .range lo hi => some ((Build.range? lo hi).run n).2
  | .anyExcept b => some ((Build.anyExcept? b).run n).2
  | .anyChar => some (Build.anyChar.run n).2
  | .concat p q => ((Build.concat? p q).run n).map Prod.snd
  | .union p q => ((Build.union? p q).run n).map Prod.snd
  | .star p => ((Build.star? p).run n).map Prod.snd
  | .plus p => ((Build.plus? p).run n).map Prod.snd

namespace Edit

/-- The states that were there before and get an edge. -/
def writes : Edit → List Nat
  | addEdge source _ _ => [source]
  | addEpsilon source _ => [source]
  | concat p _ => [p.accept]
  | union p q => [p.accept, q.accept]
  | star p => [p.accept]
  | plus p => [p.accept]
  | _ => []

/-- Whether all states that the edit names are there. -/
def Within (n : Nfa) : Edit → Prop
  | addEdge source _ target => source < n.size ∧ target < n.size
  | addEpsilon source target => source < n.size ∧ target < n.size
  | stamp id _ => id < n.size
  | concat p q => p.Within n ∧ q.Within n
  | union p q => p.Within n ∧ q.Within n
  | star p => p.Within n
  | plus p => p.Within n
  | _ => True

instance (n : Nfa) : (e : Edit) → Decidable (e.Within n)
  | addEdge .. | addEpsilon .. | concat .. | union .. => inferInstanceAs (Decidable (_ ∧ _))
  | stamp id _ => inferInstanceAs (Decidable (id < n.size))
  | star p | plus p => inferInstanceAs (Decidable (p.Within n))
  | addState | literal _ | text _ | oneOf _ | range .. | anyExcept _ | anyChar => isTrue trivial

end Edit

/-- Whether each edit names only states that are there when its turn comes. -/
def Admits (n : Nfa) : List Edit → Prop
  | [] => True
  | e :: edits => e.Within n ∧ ∀ n' ∈ n.edit? e, n'.Admits edits

instance decidableAdmits : (n : Nfa) → (edits : List Edit) → Decidable (n.Admits edits)
  | _, [] => isTrue trivial
  | _, _ :: edits =>
    have (n' : Nfa) : Decidable (n'.Admits edits) := decidableAdmits n' edits
    inferInstanceAs (Decidable (_ ∧ _))

/-! ## What an edit keeps -/

/-- The second arena is the first with more states, with more edges out of new states
and of the given ones, and maybe with more stamps. -/
structure Widens (sites : List Nat) (n n' : Nfa) : Prop where
  grows : Grows n n'
  agree : Agree n n' {q | q < n.size ∧ q ∉ sites}
  stamps : ∀ id tag, n.stampOf id = some tag → n'.stampOf id = some tag

namespace Widens

theorem refl (sites : List Nat) (n : Nfa) : Widens sites n n where
  grows := ⟨Nat.le_refl _, fun _ => List.Subset.refl _, fun _ => List.Subset.refl _⟩
  agree := fun _ _ => ⟨rfl, rfl⟩
  stamps := fun _ _ h => h

theorem trans (h : Widens sites n m) (h' : Widens more m n') : Widens (sites ++ more) n n' where
  grows := h.grows.trans h'.grows
  agree := by
    rintro q ⟨hlt, hnot⟩
    rw [List.mem_append, not_or] at hnot
    obtain ⟨hedges, hepsilon⟩ := h'.agree q ⟨Nat.lt_of_lt_of_le hlt h.grows.size_le, hnot.2⟩
    rw [hedges, hepsilon]
    exact h.agree q ⟨hlt, hnot.1⟩
  stamps := fun id tag hstamp => h'.stamps id tag (h.stamps id tag hstamp)

theorem addState (h : Widens sites n m) : Widens sites n m.addState where
  grows := h.grows.trans (grows_addState m)
  agree := fun q hq => by simpa using h.agree q hq
  stamps := fun id tag hstamp => by simpa using h.stamps id tag hstamp

/-- One more edge, out of one of the given states or of a new one. -/
theorem addEdge (h : Widens sites n m) {source : Nat} (hsource : source ∈ sites ∨ n.size ≤ source)
    (b : UInt8) (target : Nat) : Widens sites n (m.addEdge source b target) where
  grows := h.grows.trans (grows_addEdge m source b target)
  agree := by
    intro q hq
    have hne : source ≠ q := by
      rintro rfl
      exact hsource.elim hq.2 (Nat.not_le.mpr hq.1)
    simpa [edgesOf_addEdge, hne] using h.agree q hq
  stamps := fun id tag hstamp => by simpa using h.stamps id tag hstamp

/-- One more ε-edge, out of one of the given states or of a new one. -/
theorem addEpsilon (h : Widens sites n m) {source : Nat}
    (hsource : source ∈ sites ∨ n.size ≤ source) (target : Nat) :
    Widens sites n (m.addEpsilon source target) where
  grows := h.grows.trans (grows_addEpsilon m source target)
  agree := by
    intro q hq
    have hne : source ≠ q := by
      rintro rfl
      exact hsource.elim hq.2 (Nat.not_le.mpr hq.1)
    simpa [epsilonOf_addEpsilon, hne] using h.agree q hq
  stamps := fun id tag hstamp => by simpa using h.stamps id tag hstamp

theorem stamp (h : Widens sites n m) (site : Nat) (new : Tag) :
    Widens sites n (m.stamp site new) where
  grows := h.grows.trans (grows_stamp m site new)
  agree := fun q hq => by simpa using h.agree q hq
  stamps := fun id tag hstamp => by simp [stampOf_stamp, h.stamps id tag hstamp]

end Widens

/-- Pieces that are assembled on top of an arena are in new states. -/
theorem Assembled.widens {ps : List Piece} (h : Assembled n n' ps) : Widens [] n n' where
  grows := by
    refine ⟨h.size_le, fun id => ?_, fun id => ?_⟩
    · by_cases hid : id < n.size
      · rw [(h.below id hid).1]
        exact List.Subset.refl _
      · rw [edgesOf_eq_nil_of_size_le (Nat.le_of_not_lt hid)]
        exact List.nil_subset _
    · by_cases hid : id < n.size
      · rw [(h.below id hid).2]
        exact List.Subset.refl _
      · rw [epsilonOf_eq_nil_of_size_le (Nat.le_of_not_lt hid)]
        exact List.nil_subset _
  agree := fun q hq => h.below q hq.1
  stamps := fun id tag hstamp => (h.stamps id).trans hstamp

/-! ## One case per edit -/

theorem assembled_text? (n : Nfa) (bs : List UInt8) :
    ∃ ps, Assembled n ((Build.text? bs).run n).2 ps := by
  by_cases hbs : bs = []
  · subst hbs
    exact ⟨[], .start n⟩
  · rw [Build.run_text? hbs]
    exact ⟨_, (Assembled.start n).text bs hbs⟩

theorem assembled_oneOf? (n : Nfa) (bs : List UInt8) :
    ∃ ps, Assembled n ((Build.oneOf? bs).run n).2 ps := by
  by_cases hbs : bs = []
  · subst hbs
    exact ⟨[], .start n⟩
  · rw [Build.run_oneOf? hbs]
    exact ⟨_, (Assembled.start n).oneOf bs hbs⟩

theorem widens_concat (n : Nfa) (p q : Fragment) :
    Widens [p.accept] n ((Build.concat p q).run n).2 :=
  (Widens.refl _ n).addEpsilon (.inl List.mem_cons_self) _

theorem widens_union (n : Nfa) (p q : Fragment) :
    Widens [p.accept, q.accept] n ((Build.union p q).run n).2 :=
  (((((Widens.refl _ n).addState.addState).addEpsilon (.inr (Nat.le_refl _)) p.start).addEpsilon
    (.inr (Nat.le_refl _)) q.start).addEpsilon (.inl (by simp)) _).addEpsilon (.inl (by simp)) _

theorem widens_star (n : Nfa) (p : Fragment) : Widens [p.accept] n ((Build.star p).run n).2 :=
  (((((Widens.refl _ n).addState.addState).addEpsilon (.inr (Nat.le_refl _)) p.start).addEpsilon
    (.inr (Nat.le_refl _)) (n.size + 1)).addEpsilon (.inl List.mem_cons_self) _).addEpsilon
      (.inl List.mem_cons_self) _

theorem widens_plus (n : Nfa) (p : Fragment) : Widens [p.accept] n ((Build.plus p).run n).2 :=
  (widens_star n p).addEpsilon (.inl List.mem_cons_self) _

/-- An operator that is not stopped by a missing exit does what it does. -/
theorem eq_of_withExits {added : Nat} {exits : List Nat} {act : Build Fragment}
    (h : ((Build.withExits added exits act).run n).map Prod.snd = some n') :
    (act.run n).2 = n' := by
  obtain ⟨out, hout, rfl⟩ := Option.map_eq_some_iff.mp h
  obtain ⟨_, hrun⟩ := Option.ite_none_right_eq_some.mp hout
  rw [Option.some.inj hrun]

/-- What an edit does: it adds states, edges out of these and out of the states that it
writes to, and stamps. -/
theorem widens_of_edit? {e : Edit} (h : n.edit? e = some n') : Widens e.writes n n' := by
  cases e with
  | addState =>
    obtain rfl := Option.some.inj h
    exact (Widens.refl _ n).addState
  | addEdge source b target =>
    obtain ⟨_, hrun⟩ := Option.ite_none_right_eq_some.mp h
    obtain rfl := Option.some.inj hrun
    exact (Widens.refl _ n).addEdge (.inl List.mem_cons_self) b target
  | addEpsilon source target =>
    obtain ⟨_, hrun⟩ := Option.ite_none_right_eq_some.mp h
    obtain rfl := Option.some.inj hrun
    exact (Widens.refl _ n).addEpsilon (.inl List.mem_cons_self) target
  | stamp id tag =>
    obtain ⟨out, hout, rfl⟩ := Option.map_eq_some_iff.mp h
    obtain ⟨_, hrun⟩ := Option.ite_none_right_eq_some.mp hout
    obtain rfl := Option.some.inj hrun
    exact (Widens.refl _ n).stamp id tag
  | literal b =>
    obtain rfl := Option.some.inj h
    exact ((Assembled.start n).literal b).widens
  | text bs =>
    obtain rfl := Option.some.inj h
    exact (n.assembled_text? bs).choose_spec.widens
  | oneOf bs =>
    obtain rfl := Option.some.inj h
    exact (n.assembled_oneOf? bs).choose_spec.widens
  | range lo hi =>
    obtain rfl := Option.some.inj h
    exact (n.assembled_oneOf? (Bytes.range lo hi)).choose_spec.widens
  | anyExcept b =>
    obtain rfl := Option.some.inj h
    exact (n.assembled_oneOf? (Build.symbolsExcept b)).choose_spec.widens
  | anyChar =>
    obtain rfl := Option.some.inj h
    exact (Assembled.start n).anyChar.widens
  | concat p q => exact eq_of_withExits h ▸ widens_concat n p q
  | union p q => exact eq_of_withExits h ▸ widens_union n p q
  | star p => exact eq_of_withExits h ▸ widens_star n p
  | plus p => exact eq_of_withExits h ▸ widens_plus n p

/-- A state that an edit writes to does not keep its edges. -/
theorem not_agree_of_mem_writes {e : Edit} (hwithin : e.Within n) (h : n.edit? e = some n')
    {id : Nat} (hid : id < n.size) (hmem : id ∈ e.writes) :
    ¬(n'.edgesOf id = n.edgesOf id ∧ n'.epsilonOf id = n.epsilonOf id) := by
  rintro ⟨hedges, hepsilon⟩
  -- in each case the new list is the old one with something behind it
  cases e with
  | addEdge source b target =>
    obtain rfl := List.mem_singleton.mp hmem
    obtain ⟨_, hrun⟩ := Option.ite_none_right_eq_some.mp h
    obtain rfl := Option.some.inj hrun
    simp [edgesOf_addEdge, hid] at hedges
  | addEpsilon source target =>
    obtain rfl := List.mem_singleton.mp hmem
    obtain ⟨_, hrun⟩ := Option.ite_none_right_eq_some.mp h
    obtain rfl := Option.some.inj hrun
    simp [epsilonOf_addEpsilon, hid] at hepsilon
  | concat p q =>
    obtain rfl := List.mem_singleton.mp hmem
    obtain rfl := eq_of_withExits h
    simp [epsilonOf_concat hid] at hepsilon
  | union p q =>
    obtain rfl := eq_of_withExits h
    rw [epsilonOf_union hwithin.1.2 hwithin.2.2] at hepsilon
    rcases List.mem_cons.mp hmem with rfl | hmem
    · simp at hepsilon
    · obtain rfl := List.mem_singleton.mp hmem
      simp at hepsilon
  | star p =>
    obtain rfl := List.mem_singleton.mp hmem
    obtain rfl := eq_of_withExits h
    simp [epsilonOf_star hid] at hepsilon
  | plus p =>
    obtain rfl := List.mem_singleton.mp hmem
    obtain rfl := eq_of_withExits h
    simp [run_plus, epsilonOf_addEpsilon, epsilonOf_star hid] at hepsilon
  | _ => cases hmem

/-- Of the states that are there, `writes` names exactly those that get an edge. -/
theorem mem_writes_iff {e : Edit} (hwithin : e.Within n) (h : n.edit? e = some n') {id : Nat}
    (hid : id < n.size) :
    id ∈ e.writes ↔ ¬(n'.edgesOf id = n.edgesOf id ∧ n'.epsilonOf id = n.epsilonOf id) := by
  refine ⟨not_agree_of_mem_writes hwithin h hid, fun hnot => ?_⟩
  by_contra hmem
  exact hnot ((widens_of_edit? h).agree id ⟨hid, hmem⟩)

/-! ## Sequences of edits -/

theorem widens_of_foldlM {edits : List Edit} (h : edits.foldlM edit? n = some n') :
    Widens (edits.flatMap Edit.writes) n n' := by
  induction edits generalizing n with
  | nil =>
    obtain rfl := Option.some.inj h
    exact .refl _ n
  | cons e edits ih =>
    rw [List.foldlM_cons] at h
    obtain ⟨m, hm, hrest⟩ := Option.bind_eq_some_iff.mp h
    exact (widens_of_edit? hm).trans (ih hrest)

theorem run_withExits {added : Nat} {exits : List Nat} (act : Build Fragment)
    (h : ∀ id ∈ exits, id < n.size + added) :
    ((Build.withExits added exits act).run n).map Prod.snd = some (act.run n).2 := by
  have hall : exits.all (· < n.size + added) = true := by
    rw [List.all_eq_true]
    exact fun id hid => decide_eq_true (h id hid)
  show Option.map Prod.snd (if _ then some (act.run n) else none) = _
  rw [if_pos hall]
  rfl

/-- An edit that names existing states goes through, and its edges lead to states. -/
theorem Closed.exists_edit? (hn : n.Closed) {e : Edit} (h : e.Within n) :
    ∃ n', n.edit? e = some n' ∧ n'.Closed := by
  cases e with
  | addState => exact ⟨_, rfl, hn.addState⟩
  | addEdge source b target => exact ⟨_, if_pos (has_iff.mpr h.1), hn.addEdge h.2⟩
  | addEpsilon source target => exact ⟨_, if_pos (has_iff.mpr h.1), hn.addEpsilon h.2⟩
  | stamp id tag =>
    refine ⟨n.stamp id tag, ?_, hn.stamp id tag⟩
    simp [edit?, stamp?, has_iff.mpr h]
  | literal b => exact ⟨_, rfl, ((Assembled.start n).literal b).closed hn⟩
  | text bs => exact ⟨_, rfl, (n.assembled_text? bs).choose_spec.closed hn⟩
  | oneOf bs => exact ⟨_, rfl, (n.assembled_oneOf? bs).choose_spec.closed hn⟩
  | range lo hi => exact ⟨_, rfl, (n.assembled_oneOf? (Bytes.range lo hi)).choose_spec.closed hn⟩
  | anyExcept b =>
    exact ⟨_, rfl, (n.assembled_oneOf? (Build.symbolsExcept b)).choose_spec.closed hn⟩
  | anyChar => exact ⟨_, rfl, (Assembled.start n).anyChar.closed hn⟩
  | concat p q => exact ⟨_, run_withExits _ (by simpa using h.1.2), hn.addEpsilon h.2.1⟩
  | union p q =>
    refine ⟨_, run_withExits _ ?_, hn.union h.1.1 h.2.1⟩
    have hp := h.1.2
    have hq := h.2.2
    simp
    omega
  | star p => exact ⟨_, run_withExits _ (by simpa using Nat.lt_add_right 2 h.2), hn.star h.1⟩
  | plus p => exact ⟨_, run_withExits _ (by simpa using Nat.lt_add_right 2 h.2), hn.plus h.1⟩

/-- Edits in front of others go through, and those behind name existing states. -/
theorem Closed.exists_foldlM {front rest : List Edit} (hn : n.Closed)
    (h : n.Admits (front ++ rest)) :
    ∃ m, front.foldlM edit? n = some m ∧ m.Closed ∧ m.Admits rest := by
  induction front generalizing n with
  | nil => exact ⟨n, rfl, hn, h⟩
  | cons e front ih =>
    obtain ⟨hwithin, hrest⟩ := h
    obtain ⟨n', hn', hclosed⟩ := hn.exists_edit? hwithin
    obtain ⟨m, hall, hm⟩ := ih hclosed (hrest n' hn')
    refine ⟨m, ?_, hm⟩
    rw [List.foldlM_cons, hn']
    exact hall

/-! ## What a fragment notices -/

/-- In a closed arena edges lead from states to states. -/
theorem Closed.lt_size_of_mem_region (hn : n.Closed) {p q : Nat} (hp : p < n.size)
    (hq : q ∈ n.region p) : q < n.size :=
  region_subset (S := {id | id < n.size}) hp (fun p _ => hn.epsilon p) (fun p _ => hn.edges p) hq

theorem Widens.accepts {f : Fragment} {w : List UInt8} (h : Widens sites n n')
    (haccepts : n.accepts f w = true) : n'.accepts f w = true := by
  obtain ⟨hlt, hpath⟩ := accepts_iff.mp haccepts
  exact accepts_iff.mpr ⟨Nat.lt_of_lt_of_le hlt h.grows.size_le, h.grows.path hpath⟩

/-- If the fragment reaches none of the sites, then its paths are those it had. -/
theorem Widens.accepts_eq {f : Fragment} {w : List UInt8} (h : Widens sites n n') (hn : n.Closed)
    (hf : f.Within n) (hsites : ∀ q ∈ sites, q ∉ n.region f.start) :
    n'.accepts f w = n.accepts f w := by
  have hagree : Agree n n' (n.region f.start) := h.agree.mono fun q hq =>
    ⟨hn.lt_size_of_mem_region hf.1 hq, fun hsite => hsites q hsite hq⟩
  have hlt : f.accept < n'.size := Nat.lt_of_lt_of_le hf.2 h.grows.size_le
  rw [Bool.eq_iff_iff, accepts_iff, accepts_iff, hagree.path_iff]
  simp [hlt, hf.2]

/-- Whatever is done to an arena with fragments and states of it, a fragment accepts
what it accepted; and if nothing adds an edge out of a state that the fragment reached,
then it accepts nothing else. What an edit writes to are, of the states that are there
when its turn comes, exactly those that it adds an edge to. -/
theorem accepts?_of_edits (hn : n.Closed) {f : Fragment} (hf : f.Within n) {edits : List Edit}
    (hedits : n.Admits edits) :
    ∃ n', edits.foldlM edit? n = some n' ∧
      (∀ w, n.accepts? f w = some true → n'.accepts? f w = some true) ∧
      ((∀ e ∈ edits, ∀ q ∈ e.writes, q ∉ n.region f.start) →
        ∀ w, ∃ found, n.accepts? f w = some found ∧ n'.accepts? f w = some found) ∧
      ∀ front e rest, edits = front ++ e :: rest → ∃ m m', front.foldlM edit? n = some m ∧
        m.edit? e = some m' ∧ ∀ q < m.size, q ∈ e.writes ↔
          ¬(m'.edgesOf q = m.edgesOf q ∧ m'.epsilonOf q = m.epsilonOf q) := by
  obtain ⟨n', hrun, hn', _⟩ := hn.exists_foldlM (show n.Admits (edits ++ []) by simpa using hedits)
  have hwidens := widens_of_foldlM hrun
  have hf' : f.start < n'.size := Nat.lt_of_lt_of_le hf.1 hwidens.grows.size_le
  refine ⟨n', hrun, fun w hw => ?_, fun hsites w => ?_, ?_⟩
  · rw [hn.accepts?_eq_accepts hf.1, Option.some.injEq] at hw
    rw [hn'.accepts?_eq_accepts hf', hwidens.accepts hw]
  · refine ⟨_, hn.accepts?_eq_accepts hf.1 w, ?_⟩
    rw [hn'.accepts?_eq_accepts hf', hwidens.accepts_eq hn hf]
    intro q hq
    obtain ⟨e, he, hqe⟩ := List.mem_flatMap.mp hq
    exact hsites e he q hqe
  · rintro front e rest rfl
    obtain ⟨m, hfront, hm, hwithin, _⟩ := hn.exists_foldlM hedits
    obtain ⟨m', hm', _⟩ := hm.exists_edit? hwithin
    exact ⟨m, m', hfront, hm', fun q hq => mem_writes_iff hwithin hm' hq⟩

/-- A fragment for `a` and, apart from it, one for `b`. -/
def neighbours : Nfa :=
  ⟨#[{ edges := [(97, 1)] }, {}, { edges := [(98, 3)] }, {}]⟩

/-- The second fragment is repeated, the repetition leads into the first one, and the
second one is used again. -/
def reuse : List Edit :=
  [.star ⟨2, 3⟩, .concat ⟨4, 5⟩ ⟨0, 1⟩, .union ⟨2, 3⟩ ⟨2, 3⟩]

/-- The first fragment still accepts `a`, and it does not get the `b` of the other one. -/
theorem accepts?_of_edits_reuse : neighbours.Closed ∧ Fragment.Within neighbours ⟨0, 1⟩ ∧
    neighbours.Admits reuse ∧
    (∀ e ∈ reuse, ∀ q ∈ e.writes, q ∉ neighbours.region 0) ∧
    ∃ n', reuse.foldlM edit? neighbours = some n' ∧
      n'.accepts? ⟨0, 1⟩ [97] = some true ∧ n'.accepts? ⟨0, 1⟩ [98] = some false := by
  have hn : neighbours.Closed := by decide
  have hf : Fragment.Within neighbours ⟨0, 1⟩ := by decide
  have hedits : neighbours.Admits reuse := by decide
  have hregion : neighbours.region 0 ⊆ {id | id < 2} := by
    have hepsilon : ∀ q < 2, ∀ r ∈ neighbours.epsilonOf q, r < 2 := by decide
    have hedges : ∀ q < 2, ∀ e ∈ neighbours.edgesOf q, e.2 < 2 := by decide
    exact region_subset (S := {id | id < 2}) Nat.zero_lt_two hepsilon hedges
  have hsites : ∀ e ∈ reuse, ∀ q ∈ e.writes, q ∉ neighbours.region 0 := by
    have hbeyond : ∀ e ∈ reuse, ∀ q ∈ e.writes, 2 ≤ q := by decide
    exact fun e he q hq hmem => Nat.not_lt.mpr (hbeyond e he q hq) (hregion hmem)
  obtain ⟨n', hrun, hkept, hsame, _⟩ := accepts?_of_edits hn hf hedits
  have ha : neighbours.accepts? ⟨0, 1⟩ [97] = some true := by
    rw [hn.accepts?_eq_accepts hf.1, Option.some.injEq, accepts_iff]
    exact ⟨by decide, .edge (List.mem_singleton_self _) (.nil 1)⟩
  have hb : neighbours.accepts? ⟨0, 1⟩ [98] = some false := by
    rw [hn.accepts?_eq_accepts hf.1, Option.some.injEq, Bool.eq_false_iff, ne_eq, accepts_iff]
    rintro ⟨_, hpath⟩
    cases hpath with
    | epsilon hstep _ => exact List.not_mem_nil hstep
    | edge hstep _ => exact absurd (Prod.mk.inj (List.mem_singleton.mp hstep)).1 (by decide)
  obtain ⟨found, hbefore, hafter⟩ := hsame hsites [98]
  refine ⟨hn, hf, hedits, hsites, n', hrun, hkept [97] ha, ?_⟩
  rw [hafter, ← hbefore, hb]

end Nfa

end Munch
