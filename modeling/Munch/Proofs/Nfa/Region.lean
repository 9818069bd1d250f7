import Munch.Proofs.Nfa.Growth

/-!
# Regions of an arena

The region of a state is what its edges reach. Edges out of a region lead into
it, so a path that starts in a region depends on the region alone: an arena that
agrees with another on a region has the same region and the same paths there
(`Agree.region`, `Agree.path_iff`).

`Nfa.Denotes` says that a fragment stands for a language and is ready for
composition: its region exists, and its exit has no edges yet. A composition
writes ε-edges to the exits of its operands. `Path.leave` is what becomes of the
paths then: a path stays in the region, or it spells a word of the fragment up
to the exit and leaves over a new edge.
-/

namespace Munch.Nfa

variable {n n' : Nfa}

/-- Some edge leads from the first state to the second. -/
def Linked (n : Nfa) (p q : Nat) : Prop :=
  q ∈ n.epsilonOf p ∨ ∃ b, (b, q) ∈ n.edgesOf p

/-- The states that edges reach from `p`, itself included. -/
def region (n : Nfa) (p : Nat) : Set Nat :=
  {q | Relation.ReflTransGen n.Linked p q}

theorem mem_region_self (n : Nfa) (p : Nat) : p ∈ n.region p :=
  Relation.ReflTransGen.refl

theorem mem_region_of_epsilon {p q r : Nat} (hq : q ∈ n.region p) (h : r ∈ n.epsilonOf q) :
    r ∈ n.region p :=
  Relation.ReflTransGen.tail hq (.inl h)

theorem mem_region_of_edge {p q r : Nat} {b : UInt8} (hq : q ∈ n.region p)
    (h : (b, r) ∈ n.edgesOf q) : r ∈ n.region p :=
  Relation.ReflTransGen.tail hq (.inr ⟨b, h⟩)

/-- A set that edges do not leave holds the region of each of its members. -/
theorem region_subset {p : Nat} {S : Set Nat} (hp : p ∈ S)
    (heps : ∀ q ∈ S, ∀ r ∈ n.epsilonOf q, r ∈ S)
    (hedge : ∀ q ∈ S, ∀ e ∈ n.edgesOf q, e.2 ∈ S) : n.region p ⊆ S := by
  intro q hq
  induction hq with
  | refl => exact hp
  | tail _ hlink ih =>
    rcases hlink with h | ⟨b, h⟩
    · exact heps _ ih _ h
    · exact hedge _ ih _ h

theorem Path.mem_region {p q : Nat} {w : List UInt8} (h : n.Path p w q) : q ∈ n.region p := by
  induction h with
  | nil q => exact n.mem_region_self q
  | epsilon hstep _ ih => exact Relation.ReflTransGen.head (.inl hstep) ih
  | edge hstep _ ih => exact Relation.ReflTransGen.head (.inr ⟨_, hstep⟩) ih

/-- A path to another state has a first edge. -/
theorem Path.first_step {p q : Nat} {w : List UInt8} (h : n.Path p w q) (hne : p ≠ q) :
    (∃ t ∈ n.epsilonOf p, n.Path t w q) ∨
      ∃ b t v, w = b :: v ∧ (b, t) ∈ n.edgesOf p ∧ n.Path t v q := by
  cases h with
  | nil _ => exact absurd rfl hne
  | epsilon hstep hrest => exact .inl ⟨_, hstep, hrest⟩
  | edge hstep hrest => exact .inr ⟨_, _, _, rfl, hstep, hrest⟩

/-- A path from a state without edges goes nowhere. -/
theorem Path.eq_of_no_edges {p q : Nat} {w : List UInt8} (h : n.Path p w q)
    (hedge : n.edgesOf p = []) (heps : n.epsilonOf p = []) : p = q ∧ w = [] := by
  cases h with
  | nil _ => exact ⟨rfl, rfl⟩
  | epsilon hstep _ =>
    rw [heps] at hstep
    exact absurd hstep (List.not_mem_nil)
  | edge hstep _ =>
    rw [hedge] at hstep
    exact absurd hstep (List.not_mem_nil)

/-- No state is reached from both. -/
def Apart (n : Nfa) (p q : Nat) : Prop :=
  ∀ id ∈ n.region p, id ∉ n.region q

theorem Apart.symm {p q : Nat} (h : n.Apart p q) : n.Apart q p :=
  fun id hq hp => h id hp hq

/-! ## Agreement -/

/-- The two arenas have the same edges out of the states of a set. -/
def Agree (n n' : Nfa) (S : Set Nat) : Prop :=
  ∀ q ∈ S, n'.edgesOf q = n.edgesOf q ∧ n'.epsilonOf q = n.epsilonOf q

theorem Agree.symm {S : Set Nat} (h : Agree n n' S) : Agree n' n S :=
  fun q hq => ⟨(h q hq).1.symm, (h q hq).2.symm⟩

theorem Agree.mono {S T : Set Nat} (h : Agree n n' T) (hST : S ⊆ T) : Agree n n' S :=
  fun q hq => h q (hST hq)

theorem agree_stamp (n : Nfa) (site : Nat) (tag : Tag) (S : Set Nat) :
    Agree n (n.stamp site tag) S :=
  fun q _ => ⟨edgesOf_stamp n site tag q, epsilonOf_stamp n site tag q⟩

theorem Agree.region_subset {p : Nat} (h : Agree n n' (n.region p)) :
    n'.region p ⊆ n.region p := by
  apply Nfa.region_subset (n.mem_region_self p)
  · intro q hq r hr
    rw [(h q hq).2] at hr
    exact mem_region_of_epsilon hq hr
  · intro q hq e he
    rw [(h q hq).1] at he
    exact mem_region_of_edge hq he

theorem Agree.region {p : Nat} (h : Agree n n' (n.region p)) : n'.region p = n.region p := by
  apply Set.Subset.antisymm h.region_subset
  exact (h.symm.mono h.region_subset).region_subset

theorem Agree.apart {p q : Nat} (hp : Agree n n' (n.region p)) (hq : Agree n n' (n.region q))
    (h : n.Apart p q) : n'.Apart p q := by
  unfold Apart
  rw [hp.region, hq.region]
  exact h

theorem Agree.path {p q r : Nat} {w : List UInt8} (h : Agree n n' (n.region p))
    (hq : q ∈ n.region p) (hpath : n.Path q w r) : n'.Path q w r := by
  induction hpath with
  | nil q => exact .nil q
  | epsilon hstep _ ih =>
    refine .epsilon ?_ (ih (mem_region_of_epsilon hq hstep))
    rw [(h _ hq).2]
    exact hstep
  | edge hstep _ ih =>
    refine .edge ?_ (ih (mem_region_of_edge hq hstep))
    rw [(h _ hq).1]
    exact hstep

/-- The paths from a state depend on its region only. -/
theorem Agree.path_iff {p q : Nat} {w : List UInt8} (h : Agree n n' (n.region p)) :
    n'.Path p w q ↔ n.Path p w q := by
  refine ⟨Agree.path ?_ (n'.mem_region_self p), h.path (n.mem_region_self p)⟩
  rw [h.region]
  exact h.symm

/-! ## Leaving a region -/

/-- If all edges of a region are as before, but for new ε-edges at one state that
had no edges, then a path stays in the region or leaves over a new edge. -/
theorem Path.leave {p exit q r : Nat} {w : List UInt8}
    (hsame : Agree n n' (n.region p \ {exit})) (hexit : n'.edgesOf exit = [])
    (hq : q ∈ n.region p) (h : n'.Path q w r) :
    (r ∈ n.region p ∧ n.Path q w r) ∨
      ∃ u v t, w = u ++ v ∧ n.Path q u exit ∧ t ∈ n'.epsilonOf exit ∧ n'.Path t v r := by
  induction h with
  | nil q => exact .inl ⟨hq, .nil q⟩
  | @epsilon q t r w hstep hrest ih =>
    by_cases hqe : q = exit
    -- at the exit every edge is new, so the path leaves here
    · subst hqe
      exact .inr ⟨[], w, t, rfl, .nil q, hstep, hrest⟩
    · rw [(hsame q ⟨hq, hqe⟩).2] at hstep
      rcases ih (mem_region_of_epsilon hq hstep) with ⟨hr, hpath⟩ | ⟨u, v, t', hw, hu, ht', hv⟩
      · exact .inl ⟨hr, .epsilon hstep hpath⟩
      · exact .inr ⟨u, v, t', hw, .epsilon hstep hu, ht', hv⟩
  | @edge q t r b w hstep hrest ih =>
    have hqe : q ≠ exit := by
      rintro rfl
      rw [hexit] at hstep
      exact absurd hstep (List.not_mem_nil)
    rw [(hsame q ⟨hq, hqe⟩).1] at hstep
    rcases ih (mem_region_of_edge hq hstep) with ⟨hr, hpath⟩ | ⟨u, v, t', hw, hu, ht', hv⟩
    · exact .inl ⟨hr, .edge hstep hpath⟩
    · exact .inr ⟨b :: u, v, t', by rw [hw, List.cons_append], .edge hstep hu, ht', hv⟩

/-! ## Fragments that stand for a language -/

/-- The fragment stands for the language, which has words, its region exists, and
its exit has no edges. -/
structure Denotes (n : Nfa) (f : Fragment) (L : Language UInt8) : Prop where
  bounded : ∀ q ∈ n.region f.start, q < n.size
  no_edge : n.edgesOf f.accept = []
  no_epsilon : n.epsilonOf f.accept = []
  inhabited : ∃ w, w ∈ L
  words : ∀ w, n.Path f.start w f.accept ↔ w ∈ L

/-- As there is a word, the exit is part of the region. -/
theorem Denotes.accept_mem {f : Fragment} {L : Language UInt8} (h : n.Denotes f L) :
    f.accept ∈ n.region f.start := by
  obtain ⟨w, hw⟩ := h.inhabited
  exact ((h.words w).mpr hw).mem_region

theorem Denotes.start_lt {f : Fragment} {L : Language UInt8} (h : n.Denotes f L) :
    f.start < n.size :=
  h.bounded _ (n.mem_region_self _)

theorem Denotes.accept_lt {f : Fragment} {L : Language UInt8} (h : n.Denotes f L) :
    f.accept < n.size :=
  h.bounded _ h.accept_mem

theorem Denotes.accepts_iff {f : Fragment} {L : Language UInt8} (h : n.Denotes f L)
    (w : List UInt8) : n.accepts f w = true ↔ w ∈ L := by
  rw [Nfa.accepts_iff, h.words]
  exact ⟨fun hw => hw.2, fun hw => ⟨h.accept_lt, hw⟩⟩

/-- What happens outside its region does not matter to a fragment. -/
theorem Denotes.frame {f : Fragment} {L : Language UInt8} (h : n.Denotes f L)
    (hsize : n.size ≤ n'.size) (hsame : Agree n n' (n.region f.start)) : n'.Denotes f L := by
  constructor
  · intro q hq
    rw [hsame.region] at hq
    exact Nat.lt_of_lt_of_le (h.bounded q hq) hsize
  · rw [(hsame _ h.accept_mem).1]
    exact h.no_edge
  · rw [(hsame _ h.accept_mem).2]
    exact h.no_epsilon
  · exact h.inhabited
  · intro w
    rw [hsame.path_iff]
    exact h.words w

/-- A path out of the region of a fragment spells a word of the fragment first. -/
theorem Denotes.leave {f : Fragment} {L : Language UInt8} (h : n.Denotes f L) {r : Nat}
    {w : List UInt8} (hsame : Agree n n' (n.region f.start \ {f.accept}))
    (hexit : n'.edgesOf f.accept = []) (hr : r ∉ n.region f.start)
    (hpath : n'.Path f.start w r) :
    ∃ u v t, w = u ++ v ∧ u ∈ L ∧ t ∈ n'.epsilonOf f.accept ∧ n'.Path t v r := by
  rcases hpath.leave hsame hexit (n.mem_region_self _) with ⟨hin, _⟩ | ⟨u, v, t, hw, hu, ht, hv⟩
  · exact absurd hin hr
  · exact ⟨u, v, t, hw, (h.words u).mp hu, ht, hv⟩

/-- If the exit leads to one state and that leads nowhere, then what is spelled on
the way there are the words of the fragment. -/
theorem Denotes.path_to_last_iff {f : Fragment} {L : Language UInt8} (h : n.Denotes f L)
    (hgrow : Grows n n') {last : Nat} {w : List UInt8}
    (hsame : Agree n n' (n.region f.start \ {f.accept}))
    (hexit : n'.edgesOf f.accept = []) (hnext : n'.epsilonOf f.accept = [last])
    (hlast : last ∉ n.region f.start) (hedge : n'.edgesOf last = [])
    (heps : n'.epsilonOf last = []) : n'.Path f.start w last ↔ w ∈ L := by
  constructor
  · intro hpath
    obtain ⟨u, v, t, hw, hu, ht, hv⟩ := h.leave hsame hexit hlast hpath
    rw [hnext, List.mem_singleton] at ht
    subst ht
    rw [hw, (hv.eq_of_no_edges hedge heps).2, List.append_nil]
    exact hu
  · intro hw
    have hstep : n'.Path f.accept [] last := by
      refine .epsilon ?_ (.nil last)
      rw [hnext]
      exact List.mem_singleton_self _
    have hpath := (hgrow.path ((h.words w).mpr hw)).append hstep
    rw [List.append_nil] at hpath
    exact hpath

end Munch.Nfa
