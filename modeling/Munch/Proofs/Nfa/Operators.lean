import Munch.Proofs.Nfa.Region

/-!
# What the fragment operators stand for

One lemma per operator: from fragments that stand for languages and have
separate regions, the operator makes a fragment that stands for the composed
language. Each comes with a bound on the new region and with the states whose
edges are as before, which is all that a caller needs to know about the other
fragments of the arena.

`star` and `plus` write the same loop; `plus` keeps the entry of its operand and
adds one more way round. `Loops` is what both have in common.
-/

namespace Munch.Nfa

variable {n n' : Nfa} {p q f : Fragment} {L M : Language UInt8}

theorem not_mem_region_of_size_le (h : n.Denotes f L) {id : Nat} (hid : n.size ≤ id) :
    id ∉ n.region f.start :=
  fun hmem => absurd (h.bounded id hmem) (Nat.not_lt.mpr hid)

/-! ## One byte -/

theorem edgesOf_literal (n : Nfa) (b : UInt8) (id : Nat) :
    ((Build.literal b).run n).2.edgesOf id =
      if id = n.size then [(b, n.size + 1)] else n.edgesOf id := by
  show (n.addState.addState.addEdge n.size b (n.size + 1)).edgesOf id = _
  rw [edgesOf_addEdge, edgesOf_addState, edgesOf_addState]
  by_cases hid : id = n.size
  · subst hid
    have hlt : n.size < n.addState.addState.size := by
      rw [size_addState, size_addState]
      omega
    rw [if_pos ⟨rfl, hlt⟩, if_pos rfl, edgesOf_eq_nil_of_size_le (Nat.le_refl _), List.nil_append]
  · simp [hid, Ne.symm hid]

theorem epsilonOf_literal (n : Nfa) (b : UInt8) (id : Nat) :
    ((Build.literal b).run n).2.epsilonOf id = n.epsilonOf id := by
  show (n.addState.addState.addEdge n.size b (n.size + 1)).epsilonOf id = _
  rw [epsilonOf_addEdge, epsilonOf_addState, epsilonOf_addState]

theorem size_literal (n : Nfa) (b : UInt8) : ((Build.literal b).run n).2.size = n.size + 2 := by
  show (n.addState.addState.addEdge n.size b (n.size + 1)).size = _
  rw [size_addEdge, size_addState, size_addState]

theorem region_literal_subset (n : Nfa) (b : UInt8) :
    ((Build.literal b).run n).2.region n.size ⊆ {n.size, n.size + 1} := by
  apply region_subset (.inl rfl)
  · intro id hid t ht
    have hle : n.size ≤ id := by
      rcases hid with rfl | rfl
      · exact Nat.le_refl _
      · exact Nat.le_succ _
    rw [epsilonOf_literal, epsilonOf_eq_nil_of_size_le hle] at ht
    exact absurd ht (List.not_mem_nil)
  · intro id hid e he
    rw [edgesOf_literal] at he
    split at he
    · rw [List.mem_singleton.mp he]
      exact .inr rfl
    · rename_i hne
      rcases hid with rfl | rfl
      · exact absurd rfl hne
      · rw [edgesOf_eq_nil_of_size_le (Nat.le_succ _)] at he
        exact absurd he (List.not_mem_nil)

theorem denotes_literal (n : Nfa) (b : UInt8) :
    ((Build.literal b).run n).2.Denotes ((Build.literal b).run n).1 {[b]} := by
  let n' := ((Build.literal b).run n).2
  show n'.Denotes ⟨n.size, n.size + 1⟩ {[b]}
  have hstart : n'.edgesOf n.size = [(b, n.size + 1)] := by
    rw [edgesOf_literal, if_pos rfl]
  have haccept : n'.edgesOf (n.size + 1) = [] := by
    rw [edgesOf_literal, if_neg (Nat.succ_ne_self _), edgesOf_eq_nil_of_size_le (Nat.le_succ _)]
  have heps : ∀ id, n.size ≤ id → n'.epsilonOf id = [] := by
    intro id hid
    rw [epsilonOf_literal, epsilonOf_eq_nil_of_size_le hid]
  have hedge : (b, n.size + 1) ∈ n'.edgesOf n.size := by
    rw [hstart]
    exact List.mem_singleton_self _
  refine ⟨?_, haccept, heps _ (Nat.le_succ _), ⟨[b], rfl⟩, ?_⟩
  · intro id hid
    rw [size_literal]
    rcases region_literal_subset n b hid with rfl | rfl <;> omega
  · intro w
    constructor
    · intro hpath
      rcases hpath.first_step (Nat.succ_ne_self _).symm with ⟨t, ht, _⟩ | ⟨c, t, v, rfl, ht, hv⟩
      · rw [heps _ (Nat.le_refl _)] at ht
        exact absurd ht (List.not_mem_nil)
      · rw [hstart, List.mem_singleton] at ht
        obtain ⟨rfl, rfl⟩ := Prod.mk.inj ht
        rw [(hv.eq_of_no_edges haccept (heps _ (Nat.le_succ _))).2]
        rfl
    · intro hw
      rw [Set.mem_singleton_iff.mp hw]
      exact .edge hedge (.nil _)

/-! ## One after the other -/

theorem epsilonOf_concat (hp : p.accept < n.size) (id : Nat) :
    ((Build.concat p q).run n).2.epsilonOf id =
      n.epsilonOf id ++ if p.accept = id then [q.start] else [] := by
  show (n.addEpsilon p.accept q.start).epsilonOf id = _
  rw [epsilonOf_addEpsilon]
  simp [hp]

theorem edgesOf_concat (n : Nfa) (p q : Fragment) (id : Nat) :
    ((Build.concat p q).run n).2.edgesOf id = n.edgesOf id :=
  edgesOf_addEpsilon n p.accept q.start id

/-- Only the exit of the first operand gets an edge. -/
theorem agree_concat (hp : p.accept < n.size) :
    Agree n ((Build.concat p q).run n).2 {id | id ≠ p.accept} := by
  intro id hid
  rw [edgesOf_concat, epsilonOf_concat hp, if_neg (Ne.symm hid), List.append_nil]
  exact ⟨rfl, rfl⟩

theorem region_concat_subset (hp : n.Denotes p L) :
    ((Build.concat p q).run n).2.region p.start ⊆ n.region p.start ∪ n.region q.start := by
  apply region_subset (.inl (n.mem_region_self _))
  · intro id hid t ht
    rw [epsilonOf_concat hp.accept_lt, List.mem_append] at ht
    rcases ht with ht | ht
    · exact hid.imp (mem_region_of_epsilon · ht) (mem_region_of_epsilon · ht)
    · split at ht
      · rw [List.mem_singleton.mp ht]
        exact .inr (n.mem_region_self _)
      · exact absurd ht (List.not_mem_nil)
  · intro id hid e he
    rw [edgesOf_concat] at he
    exact hid.imp (mem_region_of_edge · he) (mem_region_of_edge · he)

theorem denotes_concat (hp : n.Denotes p L) (hq : n.Denotes q M)
    (hapart : n.Apart p.start q.start) :
    ((Build.concat p q).run n).2.Denotes ((Build.concat p q).run n).1 (L * M) := by
  let n' := ((Build.concat p q).run n).2
  show n'.Denotes ⟨p.start, q.accept⟩ (L * M)
  have hgrow : Grows n n' := grows_addEpsilon n p.accept q.start
  have hagree := agree_concat (q := q) hp.accept_lt
  have hexit : n'.epsilonOf p.accept = [q.start] := by
    rw [epsilonOf_concat hp.accept_lt, hp.no_epsilon, if_pos rfl, List.nil_append]
  have hq' : n'.Denotes q M := by
    apply hq.frame hgrow.size_le
    exact hagree.mono fun id hid heq => hapart _ (heq ▸ hp.accept_mem) hid
  have hout : q.accept ∉ n.region p.start :=
    fun hmem => hapart _ hmem hq.accept_mem
  have hwords : ∀ w, n'.Path p.start w q.accept ↔ w ∈ L * M := by
    intro w
    rw [Language.mem_mul]
    constructor
    · intro hpath
      -- the one way out of the first operand is into the second
      obtain ⟨u, v, t, hw, hu, ht, hv⟩ := hp.leave (hagree.mono fun id hid => hid.2)
        (by rw [edgesOf_concat]; exact hp.no_edge) hout hpath
      rw [hexit, List.mem_singleton] at ht
      subst ht
      exact ⟨u, hu, v, (hq'.words v).mp hv, hw.symm⟩
    · rintro ⟨u, hu, v, hv, rfl⟩
      refine (hgrow.path ((hp.words u).mpr hu)).append (.epsilon ?_ ((hq'.words v).mpr hv))
      rw [hexit]
      exact List.mem_singleton_self _
  refine ⟨?_, hq'.no_edge, hq'.no_epsilon, ?_, hwords⟩
  · intro id hid
    rcases region_concat_subset hp hid with hid | hid
    · exact Nat.lt_of_lt_of_le (hp.bounded id hid) hgrow.size_le
    · exact Nat.lt_of_lt_of_le (hq.bounded id hid) hgrow.size_le
  · obtain ⟨u, hu⟩ := hp.inhabited
    obtain ⟨v, hv⟩ := hq.inhabited
    exact ⟨u ++ v, Language.append_mem_mul hu hv⟩

/-! ## Either -/

theorem epsilonOf_union (hp : p.accept < n.size) (hq : q.accept < n.size) (id : Nat) :
    ((Build.union p q).run n).2.epsilonOf id =
      n.epsilonOf id ++ ((if n.size = id then [p.start, q.start] else []) ++
        ((if p.accept = id then [n.size + 1] else []) ++
          if q.accept = id then [n.size + 1] else [])) := by
  show ((((n.addState.addState.addEpsilon n.size p.start).addEpsilon n.size q.start).addEpsilon
    p.accept (n.size + 1)).addEpsilon q.accept (n.size + 1)).epsilonOf id = _
  have hs : n.size < n.size + 1 + 1 := by omega
  have hp' : p.accept < n.size + 1 + 1 := by omega
  have hq' : q.accept < n.size + 1 + 1 := by omega
  simp only [epsilonOf_addEpsilon, epsilonOf_addState, size_addEpsilon, size_addState, hs, hp',
    hq', and_true, List.append_assoc]
  by_cases hid : n.size = id <;> simp [hid]

theorem edgesOf_union (n : Nfa) (p q : Fragment) (id : Nat) :
    ((Build.union p q).run n).2.edgesOf id = n.edgesOf id := by
  show ((((n.addState.addState.addEpsilon n.size p.start).addEpsilon n.size q.start).addEpsilon
    p.accept (n.size + 1)).addEpsilon q.accept (n.size + 1)).edgesOf id = _
  simp only [edgesOf_addEpsilon, edgesOf_addState]

theorem size_union (n : Nfa) (p q : Fragment) :
    ((Build.union p q).run n).2.size = n.size + 2 := by
  show ((((n.addState.addState.addEpsilon n.size p.start).addEpsilon n.size q.start).addEpsilon
    p.accept (n.size + 1)).addEpsilon q.accept (n.size + 1)).size = _
  simp only [size_addEpsilon, size_addState]

theorem grows_union (n : Nfa) (p q : Fragment) : Grows n ((Build.union p q).run n).2 :=
  (grows_addState n).trans <| (grows_addState _).trans <| (grows_addEpsilon _ _ _).trans <|
    (grows_addEpsilon _ _ _).trans <| (grows_addEpsilon _ _ _).trans (grows_addEpsilon _ _ _)

/-- Only the exits of the operands and the new states get edges. -/
theorem agree_union (hp : p.accept < n.size) (hq : q.accept < n.size) :
    Agree n ((Build.union p q).run n).2 {id | id < n.size ∧ id ≠ p.accept ∧ id ≠ q.accept} := by
  rintro id ⟨hlt, hidp, hidq⟩
  rw [edgesOf_union, epsilonOf_union hp hq, if_neg (Nat.ne_of_gt hlt), if_neg (Ne.symm hidp),
    if_neg (Ne.symm hidq)]
  simp

theorem region_union_subset (hp : n.Denotes p L) (hq : n.Denotes q M) :
    ((Build.union p q).run n).2.region n.size ⊆
      {n.size, n.size + 1} ∪ (n.region p.start ∪ n.region q.start) := by
  apply region_subset (.inl (.inl rfl))
  · intro id hid t ht
    rw [epsilonOf_union hp.accept_lt hq.accept_lt, List.mem_append, List.mem_append,
      List.mem_append] at ht
    -- an edge that was there, one from the new entry, one from either exit
    rcases ht with ht | ht | ht | ht
    · rcases hid with hid | hid
      · have hle : n.size ≤ id := by
          rcases hid with rfl | rfl
          · exact Nat.le_refl _
          · exact Nat.le_succ _
        rw [epsilonOf_eq_nil_of_size_le hle] at ht
        exact absurd ht (List.not_mem_nil)
      · exact .inr (hid.imp (mem_region_of_epsilon · ht) (mem_region_of_epsilon · ht))
    · split at ht
      · rcases List.mem_pair.mp ht with rfl | rfl
        · exact .inr (.inl (n.mem_region_self _))
        · exact .inr (.inr (n.mem_region_self _))
      · exact absurd ht (List.not_mem_nil)
    all_goals
      split at ht
      · rw [List.mem_singleton.mp ht]
        exact .inl (.inr rfl)
      · exact absurd ht (List.not_mem_nil)
  · intro id hid e he
    rw [edgesOf_union] at he
    have hlt := lt_size_of_mem_edgesOf he
    rcases hid with hid | hid
    · rcases hid with rfl | rfl <;> omega
    · exact .inr (hid.imp (mem_region_of_edge · he) (mem_region_of_edge · he))

/-- The ε-edges of a union: from the entry to both operands, from their exits to
the new exit, and from there to nowhere. -/
theorem union_links (hp : n.Denotes p L) (hq : n.Denotes q M)
    (hapart : n.Apart p.start q.start) :
    let n' := ((Build.union p q).run n).2
    n'.epsilonOf n.size = [p.start, q.start] ∧ n'.epsilonOf p.accept = [n.size + 1] ∧
      n'.epsilonOf q.accept = [n.size + 1] ∧ n'.epsilonOf (n.size + 1) = [] := by
  have hview := epsilonOf_union hp.accept_lt hq.accept_lt
  have hplt := hp.accept_lt
  have hqlt := hq.accept_lt
  have hpq : p.accept ≠ q.accept :=
    fun heq => hapart _ hp.accept_mem (heq ▸ hq.accept_mem)
  refine ⟨?_, ?_, ?_, ?_⟩
  · rw [hview, epsilonOf_eq_nil_of_size_le (Nat.le_refl _), if_pos rfl,
      if_neg (Nat.ne_of_lt hplt), if_neg (Nat.ne_of_lt hqlt)]
    rfl
  · rw [hview, hp.no_epsilon, if_neg (Nat.ne_of_gt hplt), if_pos rfl, if_neg (Ne.symm hpq)]
    rfl
  · rw [hview, hq.no_epsilon, if_neg (Nat.ne_of_gt hqlt), if_neg hpq, if_pos rfl]
    rfl
  · rw [hview, epsilonOf_eq_nil_of_size_le (Nat.le_succ _), if_neg (by omega), if_neg (by omega),
      if_neg (by omega)]
    rfl

theorem denotes_union (hp : n.Denotes p L) (hq : n.Denotes q M)
    (hapart : n.Apart p.start q.start) :
    ((Build.union p q).run n).2.Denotes ((Build.union p q).run n).1 (L + M) := by
  let n' := ((Build.union p q).run n).2
  show n'.Denotes ⟨n.size, n.size + 1⟩ (L + M)
  have hgrow : Grows n n' := grows_union n p q
  have hagree := agree_union hp.accept_lt hq.accept_lt
  obtain ⟨hstart, hexitp, hexitq, hend⟩ := union_links hp hq hapart
  have hedge : ∀ id, n.size ≤ id → n'.edgesOf id = [] := by
    intro id hid
    rw [edgesOf_union, edgesOf_eq_nil_of_size_le hid]
  -- each arm spells the words of its operand on the way to the new exit
  have harmp : ∀ w, n'.Path p.start w (n.size + 1) ↔ w ∈ L := by
    intro w
    refine hp.path_to_last_iff hgrow (hagree.mono fun id hid => ⟨hp.bounded id hid.1, hid.2, ?_⟩)
      (by rw [edgesOf_union]; exact hp.no_edge) hexitp
      (not_mem_region_of_size_le hp (Nat.le_succ _)) (hedge _ (Nat.le_succ _)) hend
    exact fun heq => hapart _ hid.1 (heq ▸ hq.accept_mem)
  have harmq : ∀ w, n'.Path q.start w (n.size + 1) ↔ w ∈ M := by
    intro w
    refine hq.path_to_last_iff hgrow (hagree.mono fun id hid => ⟨hq.bounded id hid.1, ?_, hid.2⟩)
      (by rw [edgesOf_union]; exact hq.no_edge) hexitq
      (not_mem_region_of_size_le hq (Nat.le_succ _)) (hedge _ (Nat.le_succ _)) hend
    exact fun heq => hapart _ (heq ▸ hp.accept_mem) hid.1
  refine ⟨?_, hedge _ (Nat.le_succ _), hend, ?_, ?_⟩
  · intro id hid
    rw [size_union]
    rcases region_union_subset hp hq hid with hid | hid | hid
    · rcases hid with rfl | rfl <;> omega
    · exact Nat.lt_of_lt_of_le (hp.bounded id hid) (Nat.le_add_right _ _)
    · exact Nat.lt_of_lt_of_le (hq.bounded id hid) (Nat.le_add_right _ _)
  · obtain ⟨u, hu⟩ := hp.inhabited
    exact ⟨u, .inl hu⟩
  · intro w
    rw [Language.mem_add, ← harmp, ← harmq]
    constructor
    · intro hpath
      rcases hpath.first_step (Nat.succ_ne_self _).symm with ⟨t, ht, hrest⟩ | ⟨b, t, v, _, ht, _⟩
      · rw [hstart] at ht
        rcases List.mem_pair.mp ht with rfl | rfl
        · exact .inl hrest
        · exact .inr hrest
      · rw [hedge _ (Nat.le_refl _)] at ht
        exact absurd ht (List.not_mem_nil)
    · rintro (hpath | hpath)
      · exact .epsilon (by rw [hstart]; exact List.mem_pair.mpr (.inl rfl)) hpath
      · exact .epsilon (by rw [hstart]; exact List.mem_pair.mpr (.inr rfl)) hpath

/-! ## Loops -/

/-- The second arena is the first with a loop around a fragment: its exit leads
back to its entry and on to a fresh exit, and a fresh entry leads to both. -/
structure Loops (n n' : Nfa) (f : Fragment) (entry exit : Nat) : Prop where
  fresh : n.size ≤ entry ∧ n.size ≤ exit ∧ entry ≠ exit
  bounded : entry < n'.size ∧ exit < n'.size
  grows : Grows n n'
  agree : Agree n n' {id | id < n.size ∧ id ≠ f.accept}
  edges_new : ∀ id, n.size ≤ id → n'.edgesOf id = []
  edges_accept : n'.edgesOf f.accept = []
  epsilon_entry : ∀ t, t ∈ n'.epsilonOf entry ↔ t = f.start ∨ t = exit
  epsilon_exit : n'.epsilonOf exit = []
  back : f.start ∈ n'.epsilonOf f.accept
  out : exit ∈ n'.epsilonOf f.accept
  only : ∀ t ∈ n'.epsilonOf f.accept, t = f.start ∨ t = exit ∨ t = entry

section Loop

variable {entry exit : Nat}

theorem Loops.region_subset (h : Loops n n' f entry exit) (hf : n.Denotes f L) {id : Nat}
    (hid : id ∈ ({entry, exit} ∪ n.region f.start : Set Nat)) :
    n'.region id ⊆ {entry, exit} ∪ n.region f.start := by
  apply Nfa.region_subset hid
  · intro q hq t ht
    rcases hq with (rfl | rfl) | hq
    · rcases (h.epsilon_entry t).mp ht with rfl | rfl
      · exact .inr (n.mem_region_self _)
      · exact .inl (.inr rfl)
    · rw [h.epsilon_exit] at ht
      exact absurd ht (List.not_mem_nil)
    · by_cases hqa : q = f.accept
      · subst hqa
        rcases h.only t ht with rfl | rfl | rfl
        · exact .inr (n.mem_region_self _)
        · exact .inl (.inr rfl)
        · exact .inl (.inl rfl)
      · rw [(h.agree q ⟨hf.bounded q hq, hqa⟩).2] at ht
        exact .inr (mem_region_of_epsilon hq ht)
  · intro q hq e he
    rcases hq with (rfl | rfl) | hq
    · rw [h.edges_new _ h.fresh.1] at he
      exact absurd he (List.not_mem_nil)
    · rw [h.edges_new _ h.fresh.2.1] at he
      exact absurd he (List.not_mem_nil)
    · by_cases hqa : q = f.accept
      · rw [hqa, h.edges_accept] at he
        exact absurd he (List.not_mem_nil)
      · rw [(h.agree q ⟨hf.bounded q hq, hqa⟩).1] at he
        exact .inr (mem_region_of_edge hq he)

theorem append_mem_kstar {u v : List UInt8} (hu : u ∈ L) (hv : v ∈ KStar.kstar L) :
    u ++ v ∈ KStar.kstar L :=
  mul_kstar_le_kstar (a := L) (Language.append_mem_mul hu hv)

/-- What can still be read on a path to the exit of the loop: inside the fragment
the rest of a word and then more words, at the entry any number of words. -/
theorem Loops.words_to_exit (h : Loops n n' f entry exit) (hf : n.Denotes f L) {q r : Nat}
    {w : List UInt8} (hpath : n'.Path q w r) (hr : r = exit) :
    (q ∈ n.region f.start → ∃ u v, w = u ++ v ∧ n.Path q u f.accept ∧ v ∈ KStar.kstar L) ∧
      (q = entry → w ∈ KStar.kstar L) ∧ (q = exit → w = []) := by
  -- one induction for all three places: a path may go round through each of them
  induction hpath with
  | nil q =>
    subst hr
    refine ⟨fun hq => ?_, fun hq => absurd hq.symm h.fresh.2.2, fun _ => rfl⟩
    exact absurd hq (not_mem_region_of_size_le hf h.fresh.2.1)
  | @epsilon q t r w hstep _ ih =>
    obtain ⟨hin, hentry, hexit⟩ := ih hr
    -- from the entry of the fragment on, whole words
    have hstart : t = f.start → w ∈ KStar.kstar L := by
      rintro rfl
      obtain ⟨u, v, rfl, hu, hv⟩ := hin (n.mem_region_self _)
      exact append_mem_kstar ((hf.words u).mp hu) hv
    have hend : t = exit → w ∈ KStar.kstar L := by
      intro ht
      rw [hexit ht]
      exact Language.nil_mem_kstar L
    refine ⟨fun hq => ?_, fun hq => ?_, fun hq => ?_⟩
    · by_cases hqa : q = f.accept
      · subst hqa
        refine ⟨[], w, rfl, .nil _, ?_⟩
        rcases h.only t hstep with ht | ht | ht
        · exact hstart ht
        · exact hend ht
        · exact hentry ht
      · rw [(h.agree q ⟨hf.bounded q hq, hqa⟩).2] at hstep
        obtain ⟨u, v, hw, hu, hv⟩ := hin (mem_region_of_epsilon hq hstep)
        exact ⟨u, v, hw, .epsilon hstep hu, hv⟩
    · subst hq
      rcases (h.epsilon_entry t).mp hstep with ht | ht
      · exact hstart ht
      · exact hend ht
    · rw [hq, h.epsilon_exit] at hstep
      exact absurd hstep (List.not_mem_nil)
  | @edge q t r b w hstep _ ih =>
    obtain ⟨hin, _, _⟩ := ih hr
    refine ⟨fun hq => ?_, fun hq => ?_, fun hq => ?_⟩
    · have hqa : q ≠ f.accept := by
        rintro rfl
        rw [h.edges_accept] at hstep
        exact absurd hstep (List.not_mem_nil)
      rw [(h.agree q ⟨hf.bounded q hq, hqa⟩).1] at hstep
      obtain ⟨u, v, hw, hu, hv⟩ := hin (mem_region_of_edge hq hstep)
      exact ⟨b :: u, v, by rw [hw, List.cons_append], .edge hstep hu, hv⟩
    · rw [hq, h.edges_new _ h.fresh.1] at hstep
      exact absurd hstep (List.not_mem_nil)
    · rw [hq, h.edges_new _ h.fresh.2.1] at hstep
      exact absurd hstep (List.not_mem_nil)

/-- After a word, any number of words leads to the exit of the loop. -/
theorem Loops.path_of_kstar (h : Loops n n' f entry exit) (hf : n.Denotes f L) {w : List UInt8}
    (hw : w ∈ KStar.kstar L) : n'.Path f.accept w exit := by
  obtain ⟨ws, rfl, hws⟩ := Language.mem_kstar.mp hw
  clear hw
  induction ws with
  | nil => exact .epsilon h.out (.nil _)
  | cons u ws ih =>
    obtain ⟨hu, hrest⟩ := List.forall_mem_cons.mp hws
    rw [List.flatten_cons]
    exact .epsilon h.back ((h.grows.path ((hf.words u).mpr hu)).append (ih hrest))

theorem Loops.denotes_entry (h : Loops n n' f entry exit) (hf : n.Denotes f L) :
    n'.Denotes ⟨entry, exit⟩ (KStar.kstar L) := by
  refine ⟨?_, h.edges_new _ h.fresh.2.1, h.epsilon_exit, ⟨[], Language.nil_mem_kstar L⟩, ?_⟩
  · intro id hid
    rcases h.region_subset hf (.inl (.inl rfl)) hid with (rfl | rfl) | hid
    · exact h.bounded.1
    · exact h.bounded.2
    · exact Nat.lt_of_lt_of_le (hf.bounded id hid) h.grows.size_le
  · intro w
    refine ⟨fun hpath => (h.words_to_exit hf hpath rfl).2.1 rfl, fun hw => ?_⟩
    obtain ⟨ws, rfl, hws⟩ := Language.mem_kstar.mp hw
    cases ws with
    | nil => exact .epsilon ((h.epsilon_entry _).mpr (.inr rfl)) (.nil _)
    | cons u ws =>
      obtain ⟨hu, hrest⟩ := List.forall_mem_cons.mp hws
      rw [List.flatten_cons]
      refine .epsilon ((h.epsilon_entry _).mpr (.inl rfl)) ?_
      exact (h.grows.path ((hf.words u).mpr hu)).append
        (h.path_of_kstar hf (Language.mem_kstar.mpr ⟨ws, rfl, hrest⟩))

theorem Loops.denotes_start (h : Loops n n' f entry exit) (hf : n.Denotes f L) :
    n'.Denotes ⟨f.start, exit⟩ (L * KStar.kstar L) := by
  refine ⟨?_, h.edges_new _ h.fresh.2.1, h.epsilon_exit, ?_, ?_⟩
  · intro id hid
    rcases h.region_subset hf (.inr (n.mem_region_self _)) hid with (rfl | rfl) | hid
    · exact h.bounded.1
    · exact h.bounded.2
    · exact Nat.lt_of_lt_of_le (hf.bounded id hid) h.grows.size_le
  · obtain ⟨u, hu⟩ := hf.inhabited
    exact ⟨u ++ [], Language.append_mem_mul hu (Language.nil_mem_kstar L)⟩
  · intro w
    rw [Language.mem_mul]
    constructor
    · intro hpath
      obtain ⟨u, v, rfl, hu, hv⟩ := (h.words_to_exit hf hpath rfl).1 (n.mem_region_self _)
      exact ⟨u, (hf.words u).mp hu, v, hv, rfl⟩
    · rintro ⟨u, hu, v, hv, rfl⟩
      exact (h.grows.path ((hf.words u).mpr hu)).append (h.path_of_kstar hf hv)

end Loop

theorem epsilonOf_star (hf : f.accept < n.size) (id : Nat) :
    ((Build.star f).run n).2.epsilonOf id =
      n.epsilonOf id ++ ((if n.size = id then [f.start, n.size + 1] else []) ++
        if f.accept = id then [f.start, n.size + 1] else []) := by
  show ((((n.addState.addState.addEpsilon n.size f.start).addEpsilon n.size (n.size + 1)).addEpsilon
    f.accept f.start).addEpsilon f.accept (n.size + 1)).epsilonOf id = _
  have hs : n.size < n.size + 1 + 1 := by omega
  have hf' : f.accept < n.size + 1 + 1 := by omega
  simp only [epsilonOf_addEpsilon, epsilonOf_addState, size_addEpsilon, size_addState, hs, hf',
    and_true, List.append_assoc]
  by_cases hid : n.size = id <;> by_cases hidf : f.accept = id <;> simp [hid, hidf]

theorem edgesOf_star (n : Nfa) (f : Fragment) (id : Nat) :
    ((Build.star f).run n).2.edgesOf id = n.edgesOf id := by
  show ((((n.addState.addState.addEpsilon n.size f.start).addEpsilon n.size (n.size + 1)).addEpsilon
    f.accept f.start).addEpsilon f.accept (n.size + 1)).edgesOf id = _
  simp only [edgesOf_addEpsilon, edgesOf_addState]

theorem size_star (n : Nfa) (f : Fragment) : ((Build.star f).run n).2.size = n.size + 2 := by
  show ((((n.addState.addState.addEpsilon n.size f.start).addEpsilon n.size (n.size + 1)).addEpsilon
    f.accept f.start).addEpsilon f.accept (n.size + 1)).size = _
  simp only [size_addEpsilon, size_addState]

theorem grows_star (n : Nfa) (f : Fragment) : Grows n ((Build.star f).run n).2 :=
  (grows_addState n).trans <| (grows_addState _).trans <| (grows_addEpsilon _ _ _).trans <|
    (grows_addEpsilon _ _ _).trans <| (grows_addEpsilon _ _ _).trans (grows_addEpsilon _ _ _)

/-- `plus` is `star` with one more ε-edge, from the exit of the operand to the
entry of the repetition. -/
theorem run_plus (n : Nfa) (f : Fragment) :
    (Build.plus f).run n =
      (⟨f.start, n.size + 1⟩, ((Build.star f).run n).2.addEpsilon f.accept n.size) :=
  rfl

theorem loops_star (hf : n.Denotes f L) :
    Loops n ((Build.star f).run n).2 f n.size (n.size + 1) := by
  have hlt := hf.accept_lt
  have hview : ∀ id, ((Build.star f).run n).2.epsilonOf id = _ := epsilonOf_star hlt
  have haccept : ((Build.star f).run n).2.epsilonOf f.accept = [f.start, n.size + 1] := by
    rw [hview, hf.no_epsilon, if_neg (Nat.ne_of_gt hlt), if_pos rfl]
    rfl
  refine ⟨⟨Nat.le_refl _, Nat.le_succ _, (Nat.succ_ne_self _).symm⟩, ?_, grows_star n f, ?_, ?_, ?_,
    ?_, ?_, ?_, ?_, ?_⟩
  · rw [size_star]
    omega
  · rintro id ⟨hid, hne⟩
    rw [edgesOf_star, hview, if_neg (Nat.ne_of_gt hid), if_neg (Ne.symm hne)]
    simp
  · intro id hid
    rw [edgesOf_star, edgesOf_eq_nil_of_size_le hid]
  · rw [edgesOf_star, hf.no_edge]
  · intro t
    rw [hview, epsilonOf_eq_nil_of_size_le (Nat.le_refl _), if_pos rfl, if_neg (Nat.ne_of_lt hlt),
      List.nil_append, List.append_nil, List.mem_pair]
  · rw [hview, epsilonOf_eq_nil_of_size_le (Nat.le_succ _), if_neg (by omega), if_neg (by omega)]
    rfl
  · rw [haccept]
    exact List.mem_pair.mpr (.inl rfl)
  · rw [haccept]
    exact List.mem_pair.mpr (.inr rfl)
  · intro t ht
    rw [haccept] at ht
    exact (List.mem_pair.mp ht).imp_right .inl

/-- One more way from the exit of the operand into the repetition makes no
difference to the loop. -/
theorem loops_plus (hf : n.Denotes f L) :
    Loops n ((Build.plus f).run n).2 f n.size (n.size + 1) := by
  have hstar := loops_star hf
  have hlt := hf.accept_lt
  rw [run_plus]
  have hview : ∀ id, (((Build.star f).run n).2.addEpsilon f.accept n.size).epsilonOf id =
      ((Build.star f).run n).2.epsilonOf id ++ if f.accept = id then [n.size] else [] := by
    intro id
    have hlt' := Nat.lt_of_lt_of_le hlt hstar.grows.size_le
    rw [epsilonOf_addEpsilon]
    simp [hlt']
  refine ⟨hstar.fresh, ?_, hstar.grows.trans (grows_addEpsilon _ _ _), ?_, ?_, ?_, ?_, ?_, ?_, ?_,
    ?_⟩
  · rw [size_addEpsilon]
    exact hstar.bounded
  · rintro id ⟨hid, hne⟩
    rw [edgesOf_addEpsilon, hview, if_neg (Ne.symm hne), List.append_nil]
    exact hstar.agree id ⟨hid, hne⟩
  · intro id hid
    rw [edgesOf_addEpsilon]
    exact hstar.edges_new id hid
  · rw [edgesOf_addEpsilon]
    exact hstar.edges_accept
  · intro t
    rw [hview, if_neg (Nat.ne_of_lt hlt), List.append_nil]
    exact hstar.epsilon_entry t
  · rw [hview, if_neg (by omega), List.append_nil]
    exact hstar.epsilon_exit
  · rw [hview]
    exact List.mem_append_left _ hstar.back
  · rw [hview]
    exact List.mem_append_left _ hstar.out
  · intro t ht
    rw [hview, if_pos rfl, List.mem_append, List.mem_singleton] at ht
    rcases ht with ht | ht
    · exact hstar.only t ht
    · exact .inr (.inr ht)

end Munch.Nfa
