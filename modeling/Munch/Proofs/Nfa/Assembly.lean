import Munch.Proofs.Nfa.Operators

/-!
# Fragments side by side

Fragments are built in one arena, in any order, and each is used up by the
operator that takes it in. `Nfa.Assembled` is the invariant of such work on top
of a base: every loose piece stands for its language, the regions of the pieces
are apart from each other and from the base, and the base is as it was.

Each operator takes the pieces it needs from the front of the list and puts its
own there. That the rest of the pieces is not disturbed is one argument for all
of them (`Assembled.replace`): an operator touches new states and the regions of
its operands only.
-/

namespace Munch.Nfa

open Build

/-- A fragment that no operator has used yet, with its language. -/
abbrev Piece := Language UInt8 × Fragment

variable {base n n' : Nfa} {L M : Language UInt8} {f p q : Fragment} {ps rest : List Piece}

/-- The pieces are loose in `n`, which was grown from `base`. -/
structure Assembled (base n : Nfa) (ps : List Piece) : Prop where
  size_le : base.size ≤ n.size
  below : Agree base n {id | id < base.size}
  stamps : ∀ id, n.stampOf id = base.stampOf id
  closed : base.Closed → n.Closed
  denotes : ∀ p ∈ ps, n.Denotes p.2 p.1
  fresh : ∀ p ∈ ps, ∀ id ∈ n.region p.2.start, base.size ≤ id
  apart : ps.Pairwise fun p q => n.Apart p.2.start q.2.start

theorem Assembled.start (base : Nfa) : Assembled base base [] :=
  ⟨Nat.le_refl _, fun _ _ => ⟨rfl, rfl⟩, fun _ => rfl, fun h => h,
    fun _ h => absurd h (List.not_mem_nil), fun _ h => absurd h (List.not_mem_nil), .nil⟩

theorem Assembled.reorder {qs : List Piece} (h : Assembled base n ps) (hperm : ps.Perm qs) :
    Assembled base n qs :=
  ⟨h.size_le, h.below, h.stamps, h.closed, fun p hp => h.denotes p (hperm.mem_iff.mpr hp),
    fun p hp => h.fresh p (hperm.mem_iff.mpr hp),
    (hperm.pairwise_iff fun hpq => hpq.symm).mp h.apart⟩

/-- Replacing the pieces in front by one whose region consists of touched states:
the other pieces and the base do not notice. -/
theorem Assembled.replace (ops : List Piece) (touched : Set Nat)
    (h : Assembled base n (ops ++ rest))
    (htouched : ∀ id ∈ touched, n.size ≤ id ∨ ∃ p ∈ ops, id ∈ n.region p.2.start)
    (hsize : n.size ≤ n'.size) (hagree : Agree n n' {id | id ∉ touched})
    (hstamps : ∀ id, n'.stampOf id = n.stampOf id) (hclosed : n.Closed → n'.Closed)
    (hf : n'.Denotes f L) (hregion : n'.region f.start ⊆ touched) :
    Assembled base n' ((L, f) :: rest) := by
  obtain ⟨_, hrest, hcross⟩ := List.pairwise_append.mp h.apart
  have hden : ∀ p ∈ rest, n.Denotes p.2 p.1 :=
    fun p hp => h.denotes p (List.mem_append_right _ hp)
  -- no touched state is in the region of another piece
  have huntouched : ∀ p ∈ rest, ∀ id ∈ n.region p.2.start, id ∉ touched := by
    intro p hp id hid ht
    rcases htouched id ht with hle | ⟨op, hop, hidop⟩
    · exact not_mem_region_of_size_le (hden p hp) hle hid
    · exact hcross op hop p hp id hidop hid
  have hsame : ∀ p ∈ rest, Agree n n' (n.region p.2.start) :=
    fun p hp => hagree.mono fun id hid => huntouched p hp id hid
  -- nor is one in the base
  have hbase : ∀ id ∈ touched, base.size ≤ id := by
    intro id hid
    rcases htouched id hid with hle | ⟨op, hop, hidop⟩
    · exact Nat.le_trans h.size_le hle
    · exact h.fresh op (List.mem_append_left _ hop) id hidop
  refine ⟨Nat.le_trans h.size_le hsize, ?_, ?_, fun hb => hclosed (h.closed hb), ?_, ?_, ?_⟩
  · intro id hid
    have hnot : id ∉ touched := fun ht => absurd (hbase id ht) (Nat.not_le.mpr hid)
    rw [(hagree id hnot).1, (hagree id hnot).2]
    exact h.below id hid
  · intro id
    rw [hstamps, h.stamps]
  · intro p hp
    rcases List.mem_cons.mp hp with rfl | hp
    · exact hf
    · exact (hden p hp).frame hsize (hsame p hp)
  · intro p hp id hid
    rcases List.mem_cons.mp hp with rfl | hp
    · exact hbase id (hregion hid)
    · rw [(hsame p hp).region] at hid
      exact h.fresh p (List.mem_append_right _ hp) id hid
  · refine List.pairwise_cons.mpr ⟨?_, ?_⟩
    · intro p hp
      apply Apart.symm
      intro id hid hmem
      rw [(hsame p hp).region] at hid
      exact huntouched p hp id hid (hregion hmem)
    · refine hrest.imp_of_mem ?_
      exact fun hp hq => (hsame _ hp).apart (hsame _ hq)

/-! ## The operators -/

theorem Assembled.literal (h : Assembled base n ps) (b : UInt8) :
    Assembled base ((Build.literal b).run n).2 (({[b]}, ((Build.literal b).run n).1) :: ps) := by
  apply Assembled.replace [] {id | n.size ≤ id} h (fun id hid => .inl hid)
  · rw [size_literal]
    omega
  · intro id hid
    rw [edgesOf_literal, epsilonOf_literal, if_neg (fun heq => hid (Nat.le_of_eq heq.symm))]
    exact ⟨rfl, rfl⟩
  · intro id
    show (n.addState.addState.addEdge n.size b (n.size + 1)).stampOf id = _
    rw [stampOf_addEdge, stampOf_addState, stampOf_addState]
  · intro hn
    exact hn.addState.addState.addEdge (by rw [size_addState, size_addState]; omega)
  · exact denotes_literal n b
  · intro id hid
    rcases region_literal_subset n b hid with rfl | rfl
    · exact Nat.le_refl _
    · exact Nat.le_succ _

/-- The states that an operator with one operand touches. -/
def touched₁ (n : Nfa) (p : Fragment) : Set Nat :=
  {id | n.size ≤ id} ∪ n.region p.start

/-- The states that an operator with two operands touches. -/
def touched₂ (n : Nfa) (p q : Fragment) : Set Nat :=
  {id | n.size ≤ id} ∪ (n.region p.start ∪ n.region q.start)

theorem of_mem_touched₁ {id : Nat} (h : id ∈ n.touched₁ p) :
    n.size ≤ id ∨ ∃ op ∈ [(L, p)], id ∈ n.region op.2.start :=
  h.imp_right fun hid => ⟨(L, p), List.mem_singleton_self _, hid⟩

theorem of_mem_touched₂ {id : Nat} (h : id ∈ n.touched₂ p q) :
    n.size ≤ id ∨ ∃ op ∈ [(L, p), (M, q)], id ∈ n.region op.2.start := by
  rcases h with h | h | h
  · exact .inl h
  · exact .inr ⟨(L, p), List.mem_cons_self, h⟩
  · exact .inr ⟨(M, q), List.mem_cons_of_mem _ (List.mem_singleton_self _), h⟩

theorem Assembled.two (h : Assembled base n ((L, p) :: (M, q) :: ps)) :
    n.Denotes p L ∧ n.Denotes q M ∧ n.Apart p.start q.start :=
  ⟨h.denotes _ List.mem_cons_self, h.denotes _ (List.mem_cons_of_mem _ List.mem_cons_self),
    (List.pairwise_cons.mp h.apart).1 _ List.mem_cons_self⟩

theorem Assembled.concat (h : Assembled base n ((L, p) :: (M, q) :: ps)) :
    Assembled base ((Build.concat p q).run n).2
      ((L * M, ((Build.concat p q).run n).1) :: ps) := by
  obtain ⟨hp, hq, hapart⟩ := h.two
  apply Assembled.replace [(L, p), (M, q)] (n.touched₂ p q) h (fun id => of_mem_touched₂)
  · exact (grows_addEpsilon n p.accept q.start).size_le
  · apply (agree_concat hp.accept_lt).mono
    rintro id hid rfl
    exact hid (.inr (.inl hp.accept_mem))
  · exact fun id => stampOf_addEpsilon n p.accept q.start id
  · exact fun hn => hn.addEpsilon hq.start_lt
  · exact denotes_concat hp hq hapart
  · exact fun id hid => .inr (region_concat_subset hp hid)

theorem Closed.union (hn : n.Closed) (hp : p.start < n.size) (hq : q.start < n.size) :
    ((Build.union p q).run n).2.Closed :=
  (((hn.addState.addState.addEpsilon (by simp; omega)).addEpsilon (by simp; omega)).addEpsilon
    (by simp)).addEpsilon (by simp)

theorem Assembled.union (h : Assembled base n ((L, p) :: (M, q) :: ps)) :
    Assembled base ((Build.union p q).run n).2
      ((L + M, ((Build.union p q).run n).1) :: ps) := by
  obtain ⟨hp, hq, hapart⟩ := h.two
  have hps := hp.start_lt
  have hqs := hq.start_lt
  apply Assembled.replace [(L, p), (M, q)] (n.touched₂ p q) h (fun id => of_mem_touched₂)
  · exact (grows_union n p q).size_le
  · apply (agree_union hp.accept_lt hq.accept_lt).mono
    intro id hid
    refine ⟨Nat.lt_of_not_le fun hle => hid (.inl hle), ?_, ?_⟩
    · rintro rfl
      exact hid (.inr (.inl hp.accept_mem))
    · rintro rfl
      exact hid (.inr (.inr hq.accept_mem))
  · intro id
    show ((((n.addState.addState.addEpsilon n.size p.start).addEpsilon n.size q.start).addEpsilon
      p.accept (n.size + 1)).addEpsilon q.accept (n.size + 1)).stampOf id = _
    simp only [stampOf_addEpsilon, stampOf_addState]
  · exact fun hn => hn.union hps hqs
  · exact denotes_union hp hq hapart
  · intro id hid
    rcases region_union_subset hp hq hid with (rfl | rfl) | hid
    · exact .inl (Nat.le_refl _)
    · exact .inl (Nat.le_succ _)
    · exact .inr hid

/-- Both loops touch the new states and the region of the operand. -/
theorem Assembled.loop {entry exit first : Nat} (h : Assembled base n ((L, p) :: ps))
    (hloop : Loops n n' p entry exit)
    (hstamps : ∀ id, n'.stampOf id = n.stampOf id) (hclosed : n.Closed → n'.Closed)
    (hfirst : first = entry ∨ first = p.start) (hf : n'.Denotes ⟨first, exit⟩ M) :
    Assembled base n' ((M, ⟨first, exit⟩) :: ps) := by
  have hp : n.Denotes p L := h.denotes _ List.mem_cons_self
  apply Assembled.replace [(L, p)] (n.touched₁ p) h (fun id => of_mem_touched₁)
  · exact hloop.grows.size_le
  · apply hloop.agree.mono
    intro id hid
    refine ⟨Nat.lt_of_not_le fun hle => hid (.inl hle), ?_⟩
    rintro rfl
    exact hid (.inr hp.accept_mem)
  · exact hstamps
  · exact hclosed
  · exact hf
  · intro id hid
    have hmem : first ∈ ({entry, exit} ∪ n.region p.start : Set Nat) := by
      rcases hfirst with rfl | rfl
      · exact .inl (.inl rfl)
      · exact .inr (n.mem_region_self _)
    rcases hloop.region_subset hp hmem hid with (rfl | rfl) | hid
    · exact .inl hloop.fresh.1
    · exact .inl hloop.fresh.2.1
    · exact .inr hid

theorem stampOf_star (n : Nfa) (p : Fragment) (id : Nat) :
    ((Build.star p).run n).2.stampOf id = n.stampOf id := by
  show ((((n.addState.addState.addEpsilon n.size p.start).addEpsilon n.size (n.size + 1)).addEpsilon
    p.accept p.start).addEpsilon p.accept (n.size + 1)).stampOf id = _
  simp only [stampOf_addEpsilon, stampOf_addState]

theorem Closed.star (hn : n.Closed) (hp : p.start < n.size) : ((Build.star p).run n).2.Closed :=
  (((hn.addState.addState.addEpsilon (by simp; omega)).addEpsilon (by simp)).addEpsilon
    (by simp; omega)).addEpsilon (by simp)

theorem Closed.plus (hn : n.Closed) (hp : p.start < n.size) :
    ((Build.plus p).run n).2.Closed := by
  rw [run_plus]
  refine (hn.star hp).addEpsilon ?_
  rw [size_star]
  omega

theorem Assembled.star (h : Assembled base n ((L, p) :: ps)) :
    Assembled base ((Build.star p).run n).2
      ((KStar.kstar L, ((Build.star p).run n).1) :: ps) := by
  have hp : n.Denotes p L := h.denotes _ List.mem_cons_self
  exact h.loop (loops_star hp) (stampOf_star n p) (fun hn => hn.star hp.start_lt) (.inl rfl)
    ((loops_star hp).denotes_entry hp)

theorem Assembled.plus (h : Assembled base n ((L, p) :: ps)) :
    Assembled base ((Build.plus p).run n).2
      ((L * KStar.kstar L, ((Build.plus p).run n).1) :: ps) := by
  have hp : n.Denotes p L := h.denotes _ List.mem_cons_self
  have hloop := loops_plus hp
  refine h.loop hloop ?_ (fun hn => hn.plus hp.start_lt) (.inr rfl) (hloop.denotes_start hp)
  intro id
  rw [run_plus, stampOf_addEpsilon, stampOf_star]

/-! ## Words and classes -/

/-- The words of one byte, which is one of the given. -/
def oneByte (bs : List UInt8) : Language UInt8 :=
  {w | ∃ b ∈ bs, w = [b]}

theorem mem_oneByte {bs : List UInt8} {w : List UInt8} :
    w ∈ oneByte bs ↔ ∃ b ∈ bs, w = [b] :=
  Iff.rfl

theorem oneByte_singleton (b : UInt8) : oneByte [b] = {[b]} := by
  ext w
  rw [mem_oneByte]
  constructor
  · rintro ⟨c, hc, rfl⟩
    rw [List.mem_singleton.mp hc]
    rfl
  · exact fun hw => ⟨b, List.mem_singleton_self b, hw⟩

theorem oneByte_append (bs cs : List UInt8) : oneByte (bs ++ cs) = oneByte bs + oneByte cs := by
  ext w
  rw [Language.mem_add]
  simp only [mem_oneByte, List.mem_append, or_and_right, exists_or]

/-- A left fold of unions adds one byte after the other to the class. -/
theorem Assembled.foldlM_union {cs : List UInt8} (bs : List UInt8)
    (h : Assembled base n ((oneByte cs, p) :: ps)) :
    let out := (bs.foldlM (fun p c => do Build.union p (← Build.literal c)) p).run n
    Assembled base out.2 ((oneByte (cs ++ bs), out.1) :: ps) := by
  induction bs generalizing n p cs with
  | nil =>
    rw [List.append_nil]
    exact h
  | cons b bs ih =>
    -- the new byte is the second operand, and it is in front of the list
    have hnext := ((h.literal b).reorder (.swap _ _ _)).union
    rw [← oneByte_singleton, ← oneByte_append] at hnext
    have hall := ih hnext
    rw [List.append_assoc] at hall
    exact hall

theorem Assembled.oneOf (h : Assembled base n ps) (bs : List UInt8) (hbs : bs ≠ []) :
    Assembled base ((Build.oneOf bs hbs).run n).2
      ((oneByte bs, ((Build.oneOf bs hbs).run n).1) :: ps) := by
  cases bs with
  | nil => exact absurd rfl hbs
  | cons b bs =>
    have hfirst := h.literal b
    rw [← oneByte_singleton] at hfirst
    exact hfirst.foldlM_union bs

/-- A left fold of concatenations adds one byte after the other to the word. -/
theorem Assembled.foldlM_concat {cs : List UInt8} (bs : List UInt8)
    (h : Assembled base n (({cs}, p) :: ps)) :
    let out := (bs.foldlM (fun p c => do Build.concat p (← Build.literal c)) p).run n
    Assembled base out.2 (({cs ++ bs}, out.1) :: ps) := by
  induction bs generalizing n p cs with
  | nil =>
    rw [List.append_nil]
    exact h
  | cons b bs ih =>
    have hnext := ((h.literal b).reorder (.swap _ _ _)).concat
    have hmul : ({cs} * {[b]} : Language UInt8) = {cs ++ [b]} := Set.image2_singleton
    rw [hmul] at hnext
    have hall := ih hnext
    rw [List.append_assoc] at hall
    exact hall

theorem Assembled.text (h : Assembled base n ps) (bs : List UInt8) (hbs : bs ≠ []) :
    Assembled base ((Build.text bs hbs).run n).2
      (({bs}, ((Build.text bs hbs).run n).1) :: ps) := by
  cases bs with
  | nil => exact absurd rfl hbs
  | cons b bs => exact (h.literal b).foldlM_concat bs

theorem run_anyChar (n : Nfa) (hne : Alphabet.symbols ≠ []) :
    Build.anyChar.run n =
      let printable := (Build.oneOf Alphabet.symbols hne).run n
      let newline := (Build.literal 10).run printable.2
      (Build.union printable.1 newline.1).run newline.2 := by
  unfold Build.anyChar
  generalize Build.oneOf Alphabet.symbols hne = printable
  rfl

theorem Assembled.anyChar (h : Assembled base n ps) :
    Assembled base (Build.anyChar.run n).2
      ((oneByte (Alphabet.symbols ++ [10]), (Build.anyChar.run n).1) :: ps) := by
  have hne : Alphabet.symbols ≠ [] := by decide
  have hall := (((h.oneOf Alphabet.symbols hne).literal 10).reorder (.swap _ _ _)).union
  rw [← oneByte_singleton, ← oneByte_append] at hall
  rw [run_anyChar n hne]
  exact hall

end Munch.Nfa
