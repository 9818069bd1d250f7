import Mathlib.Data.Finset.Card
import Mathlib.Data.List.Sort
import Munch.Proofs.Nfa.Path

/-!
# The closure as a search with a stack

`Nfa.closure` marks a state when it expands it. Here a state is marked when it is found:
`Search.offer` stacks a state that is new, `Nfa.pop?` takes the latest state from the
stack and offers what its ε-edges lead to, and `Nfa.Exhausts` is a run until the stack is
empty. A closed list is collected by offering the seeds to an empty search
(`Search.ofSeeds`), and a set is closed in place by stacking its members in any order;
both searches start from the seeds (`Search.StartsFrom`).

A state that was found waits on the stack or has all its ε-edges inside the set
(`Search.Sound`), so the set of an empty stack is the closure. Offers lengthen the stack
by as much as they enlarge the set, and a turn shortens it by one, so a search among
existing states ends, after it took each state of the closure from the stack once.
`StartsFrom.exhausts_iff` has such a search end exactly if `closure?` answers, with the
states of its answer.
-/

namespace Munch.Nfa

/-- A search under way: the states that were found, and those of them whose ε-edges are
still to be followed, latest first. -/
structure Search where
  found : Finset Nat
  stack : List Nat

namespace Search

/-- Finds a state, which waits on the stack if it is new. -/
def offer (s : Search) (q : Nat) : Search :=
  if q ∈ s.found then s else ⟨insert q s.found, q :: s.stack⟩

/-- The search to which the seeds were offered one after the other. -/
def ofSeeds (seeds : List Nat) : Search :=
  seeds.foldl offer ⟨∅, []⟩

/-- The seeds and nothing else were found, and each of them waits once. -/
structure StartsFrom (s : Search) (seeds : List Nat) : Prop where
  found : ∀ q, q ∈ s.found ↔ q ∈ seeds
  stack : ∀ q, q ∈ s.stack ↔ q ∈ seeds
  length : s.stack.length = s.found.card

end Search

/-- Takes the latest state from the stack and offers what its ε-edges lead to. A missing
state has no edges to read. -/
def pop? (n : Nfa) (s : Search) : Option (Nat × Search) :=
  match s.stack with
  | [] => none
  | p :: rest =>
    if n.has p then some (p, (n.epsilonOf p).foldl Search.offer ⟨s.found, rest⟩) else none

/-- Run until the stack is empty, the search takes the listed states from it, in this
order, and leaves the set. -/
inductive Exhausts (n : Nfa) : Search → List Nat → Finset Nat → Prop
  | done {s : Search} : s.stack = [] → Exhausts n s [] s.found
  | next {s s' : Search} {p : Nat} {taken : List Nat} {out : Finset Nat} :
    n.pop? s = some (p, s') → Exhausts n s' taken out → Exhausts n s (p :: taken) out

open Search

variable {n : Nfa} {s s' : Search} {seeds taken ids : List Nat} {out : Finset Nat} {p : Nat}

/-! ## One offer, and many -/

namespace Search

theorem mem_found_offer {q r : Nat} : q ∈ (s.offer r).found ↔ q ∈ s.found ∨ q = r := by
  unfold offer
  split
  next hr => exact ⟨.inl, fun h => h.elim id fun heq => heq ▸ hr⟩
  next => rw [Finset.mem_insert, or_comm]

theorem mem_stack_offer {q r : Nat} :
    q ∈ (s.offer r).stack ↔ q ∈ s.stack ∨ (q = r ∧ q ∉ s.found) := by
  unfold offer
  split
  next hr =>
    constructor
    · exact .inl
    · rintro (hq | ⟨rfl, hnew⟩)
      · exact hq
      · exact absurd hr hnew
  next hr =>
    rw [List.mem_cons, or_comm]
    exact or_congr_right ⟨fun h => ⟨h, h ▸ hr⟩, And.left⟩

/-- An offer lengthens the stack by as much as it enlarges the set. -/
theorem length_stack_offer (q : Nat) :
    (s.offer q).stack.length + s.found.card = s.stack.length + (s.offer q).found.card := by
  unfold offer
  split
  · rfl
  next hq =>
    rw [List.length_cons, Finset.card_insert_of_notMem hq]
    omega

theorem mem_found_foldl_offer {qs : List Nat} {q : Nat} :
    q ∈ (qs.foldl offer s).found ↔ q ∈ s.found ∨ q ∈ qs := by
  induction qs generalizing s with
  | nil => simp
  | cons r qs ih => rw [List.foldl_cons, ih, mem_found_offer, List.mem_cons, or_assoc]

theorem mem_stack_foldl_offer {qs : List Nat} {q : Nat} :
    q ∈ (qs.foldl offer s).stack ↔ q ∈ s.stack ∨ (q ∈ qs ∧ q ∉ s.found) := by
  induction qs generalizing s with
  | nil => simp
  | cons r qs ih =>
    rw [List.foldl_cons, ih, mem_stack_offer, mem_found_offer, List.mem_cons]
    tauto

theorem length_stack_foldl_offer (qs : List Nat) :
    (qs.foldl offer s).stack.length + s.found.card =
      s.stack.length + (qs.foldl offer s).found.card := by
  induction qs generalizing s with
  | nil => rfl
  | cons r qs ih =>
    have hfirst := s.length_stack_offer r
    have hrest := ih (s := s.offer r)
    rw [List.foldl_cons]
    omega

theorem startsFrom_ofSeeds (seeds : List Nat) : (ofSeeds seeds).StartsFrom seeds where
  found q := by
    rw [ofSeeds, mem_found_foldl_offer]
    exact or_iff_right (Finset.notMem_empty q)
  stack q := by
    rw [ofSeeds, mem_stack_foldl_offer, or_iff_right (List.not_mem_nil)]
    exact and_iff_left (Finset.notMem_empty q)
  length := by
    have hlength := length_stack_foldl_offer (s := ⟨∅, []⟩) seeds
    rw [Finset.card_empty, List.length_nil, Nat.zero_add] at hlength
    exact hlength

/-- A set may be listed in any order. -/
theorem startsFrom_listing {listing : List Nat} (hnodup : listing.Nodup)
    (hlisting : listing.toFinset = seeds.toFinset) :
    StartsFrom ⟨seeds.toFinset, listing⟩ seeds where
  found _ := List.mem_toFinset
  stack q := by rw [← List.mem_toFinset, hlisting, List.mem_toFinset]
  length := by rw [← hlisting, List.toFinset_card_of_nodup hnodup]

end Search

/-! ## One turn -/

theorem pop?_eq_some_iff : n.pop? s = some (p, s') ↔
    ∃ rest, s.stack = p :: rest ∧ p < n.size ∧
      s' = (n.epsilonOf p).foldl Search.offer ⟨s.found, rest⟩ := by
  unfold pop?
  cases hstack : s.stack with
  | nil => simp
  | cons top rest =>
    simp only [Option.ite_none_right_eq_some, Option.some.injEq, Prod.mk.injEq, List.cons.injEq,
      has_iff]
    constructor
    · rintro ⟨htop, rfl, rfl⟩
      exact ⟨rest, ⟨rfl, rfl⟩, htop, rfl⟩
    · rintro ⟨_, ⟨rfl, rfl⟩, htop, rfl⟩
      exact ⟨htop, rfl, rfl⟩

/-- What was found is reached from the seeds, and each state of it waits on the stack or
has its ε-edges inside. -/
structure Search.Sound (s : Search) (n : Nfa) (seeds : List Nat) : Prop where
  seeded : ∀ q ∈ seeds, q ∈ s.found
  reached : ∀ q ∈ s.found, ∃ r ∈ seeds, n.EpsilonReach r q
  waiting : ∀ q ∈ s.stack, q ∈ s.found
  expanded : ∀ q ∈ s.found, q ∈ s.stack ∨ ∀ r ∈ n.epsilonOf q, r ∈ s.found

theorem Search.StartsFrom.sound (h : s.StartsFrom seeds) (n : Nfa) : s.Sound n seeds where
  seeded q hq := (h.found q).mpr hq
  reached q hq := ⟨q, (h.found q).mp hq, .refl⟩
  waiting q hq := (h.found q).mpr ((h.stack q).mp hq)
  expanded q hq := .inl ((h.stack q).mpr ((h.found q).mp hq))

theorem Search.Sound.pop? (h : s.Sound n seeds) (hpop : n.pop? s = some (p, s')) :
    s'.Sound n seeds := by
  obtain ⟨rest, hstack, _, rfl⟩ := pop?_eq_some_iff.mp hpop
  have hp : p ∈ s.found := h.waiting p (hstack ▸ List.mem_cons_self)
  constructor
  · intro q hq
    exact mem_found_foldl_offer.mpr (.inl (h.seeded q hq))
  · intro q hq
    rcases mem_found_foldl_offer.mp hq with hq | hedge
    · exact h.reached q hq
    · obtain ⟨r, hr, hreach⟩ := h.reached p hp
      exact ⟨r, hr, hreach.tail hedge⟩
  · intro q hq
    rw [mem_found_foldl_offer]
    rcases mem_stack_foldl_offer.mp hq with hq | ⟨hedge, _⟩
    · exact .inl (h.waiting q (hstack ▸ List.mem_cons_of_mem _ hq))
    · exact .inr hedge
  · intro q hq
    simp only [mem_found_foldl_offer, mem_stack_foldl_offer] at hq ⊢
    -- a state that is new waits; of the others only the one that was taken stops waiting
    by_cases hold : q ∈ s.found
    · rcases h.expanded q hold with hwaits | hinside
      · rw [hstack] at hwaits
        rcases List.mem_cons.mp hwaits with rfl | hrest
        · exact .inr fun r hr => .inr hr
        · exact .inl (.inl hrest)
      · exact .inr fun r hr => .inl (hinside r hr)
    · exact .inl (.inr ⟨hq.resolve_left hold, hold⟩)

/-! ## Runs -/

/-- The set that a search leaves holds what ε-edges reach from the seeds. -/
theorem Search.Sound.mem_iff (h : s.Sound n seeds) (hrun : n.Exhausts s taken out) {q : Nat} :
    q ∈ out ↔ ∃ r ∈ seeds, n.EpsilonReach r q := by
  induction hrun with
  | next hpop _ ih => exact ih (h.pop? hpop)
  | @done s hstack =>
    refine ⟨h.reached q, ?_⟩
    rintro ⟨r, hr, hreach⟩
    induction hreach with
    | refl => exact h.seeded r hr
    | tail _ hedge ih =>
      rcases h.expanded _ ih with hwaits | hinside
      · rw [hstack] at hwaits
        exact absurd hwaits (List.not_mem_nil)
      · exact hinside _ hedge

theorem Exhausts.lt_size (hrun : n.Exhausts s taken out) : ∀ q ∈ taken, q < n.size := by
  induction hrun with
  | done _ => exact fun q hq => absurd hq (List.not_mem_nil)
  | next hpop _ ih =>
    obtain ⟨_, _, hlt, _⟩ := pop?_eq_some_iff.mp hpop
    exact List.forall_mem_cons.mpr ⟨hlt, ih⟩

/-- All that waits or is found later is taken from the stack. -/
theorem Exhausts.mem_taken (hrun : n.Exhausts s taken out) {q : Nat} (hq : q ∈ out)
    (hwaits : q ∈ s.stack ∨ q ∉ s.found) : q ∈ taken := by
  induction hrun with
  | done hstack =>
    rw [hstack] at hwaits
    rcases hwaits with hnil | hnew
    · exact hnil
    · exact absurd hq hnew
  | next hpop _ ih =>
    obtain ⟨rest, hstack, _, rfl⟩ := pop?_eq_some_iff.mp hpop
    rw [List.mem_cons]
    by_contra hne
    obtain ⟨hfirst, hlater⟩ := not_or.mp hne
    apply hlater (ih hq ?_)
    rw [mem_stack_foldl_offer, mem_found_foldl_offer]
    rw [hstack, List.mem_cons, or_iff_right hfirst] at hwaits
    tauto

/-- Each turn takes one state, and the stack grows with the set. -/
theorem Exhausts.length_taken (hrun : n.Exhausts s taken out) :
    taken.length + s.found.card = s.stack.length + out.card := by
  induction hrun with
  | done hstack => rw [hstack]
  | @next s s' p taken out hpop _ ih =>
    obtain ⟨rest, hstack, _, rfl⟩ := pop?_eq_some_iff.mp hpop
    have hoffers := length_stack_foldl_offer (s := ⟨s.found, rest⟩) (n.epsilonOf p)
    rw [hstack, List.length_cons, List.length_cons]
    dsimp only at hoffers
    omega

theorem Search.StartsFrom.mem_taken (h : s.StartsFrom seeds) (hrun : n.Exhausts s taken out)
    {q : Nat} (hq : q ∈ out) : q ∈ taken := by
  apply hrun.mem_taken hq
  rw [h.stack, h.found]
  exact Classical.em _

/-- Each state of the set that is left was taken from the stack once. -/
theorem Search.StartsFrom.perm_taken (h : s.StartsFrom seeds)
    (hrun : n.Exhausts s taken ids.toFinset) (hids : ids.Nodup) : taken.Perm ids := by
  have hsubset : ids ⊆ taken := fun q hq => h.mem_taken hrun (List.mem_toFinset.mpr hq)
  have hlength : taken.length = ids.length := by
    have hturns := hrun.length_taken
    rw [h.length, List.toFinset_card_of_nodup hids] at hturns
    omega
  exact ((List.subperm_of_subset hids hsubset).perm_of_length_le (Nat.le_of_eq hlength)).symm

/-! ## Searches that end -/

/-- All that ε-edges reach from the seeds exists. -/
def Grounded (n : Nfa) (seeds : List Nat) : Prop :=
  ∀ r ∈ seeds, ∀ q, n.EpsilonReach r q → q < n.size

theorem grounded_of_epsilon (hepsilon : ∀ q, ∀ r ∈ n.epsilonOf q, r < n.size)
    (hseeds : ∀ r ∈ seeds, r < n.size) : n.Grounded seeds := by
  intro r hr q hreach
  cases hreach with
  | refl => exact hseeds r hr
  | tail _ hedge => exact hepsilon _ q hedge

theorem Grounded.mem_closure_iff (h : n.Grounded seeds) {q : Nat} :
    q ∈ n.closure seeds ↔ ∃ r ∈ seeds, n.EpsilonReach r q := by
  rw [mem_closure]
  exact and_iff_right_of_imp fun ⟨r, hr, hreach⟩ => h r hr q hreach

/-- The closure is answered iff all of it exists. -/
theorem closure?_eq_some_iff :
    n.closure? seeds = some ids ↔ n.Grounded seeds ∧ n.closure seeds = ids := by
  rw [closure?, Option.ite_none_right_eq_some, Option.some.injEq]
  refine and_congr_left fun _ => ?_
  simp only [Bool.and_eq_true, List.all_eq_true, has_iff]
  constructor
  · rintro ⟨hseeds, hedges⟩ r hr q hreach
    induction hreach with
    | refl => exact hseeds r hr
    | tail hreach hedge ih => exact hedges _ (mem_closure.mpr ⟨ih, r, hr, hreach⟩) _ hedge
  · intro h
    refine ⟨fun r hr => h r hr r .refl, fun q hq t hedge => ?_⟩
    obtain ⟨r, hr, hreach⟩ := h.mem_closure_iff.mp hq
    exact h r hr t (hreach.tail hedge)

theorem Search.Sound.card_found_le (h : s.Sound n seeds) (hseeds : n.Grounded seeds) :
    s.found.card ≤ n.size := by
  have hsubset : s.found ⊆ Finset.range n.size := by
    intro q hq
    obtain ⟨r, hr, hreach⟩ := h.reached q hq
    exact Finset.mem_range.mpr (hseeds r hr q hreach)
  exact Finset.card_range n.size ▸ Finset.card_le_card hsubset

/-- A search among existing states ends. What bounds the turns is the stack and the number
of states that were not found yet. -/
theorem Search.Sound.exists_exhausts (h : s.Sound n seeds) (hseeds : n.Grounded seeds)
    {turns : Nat} (hturns : s.stack.length + n.size ≤ turns + s.found.card) :
    ∃ taken out, n.Exhausts s taken out := by
  induction turns generalizing s with
  | zero =>
    have hcard := h.card_found_le hseeds
    exact ⟨_, _, .done (List.length_eq_zero_iff.mp (by omega))⟩
  | succ turns ih =>
    cases hstack : s.stack with
    | nil => exact ⟨_, _, .done hstack⟩
    | cons p rest =>
      have hp : p < n.size := by
        obtain ⟨r, hr, hreach⟩ := h.reached p (h.waiting p (hstack ▸ List.mem_cons_self))
        exact hseeds r hr p hreach
      have hpop := pop?_eq_some_iff.mpr ⟨rest, hstack, hp, rfl⟩
      have hoffers := length_stack_foldl_offer (s := ⟨s.found, rest⟩) (n.epsilonOf p)
      dsimp only at hoffers
      rw [hstack, List.length_cons] at hturns
      obtain ⟨taken, out, hrun⟩ := ih (h.pop? hpop) (by omega)
      exact ⟨p :: taken, out, .next hpop hrun⟩

/-- A search from the seeds ends iff the closure is answered, and it leaves the states of
the answer. -/
theorem Search.StartsFrom.exhausts_iff (h : s.StartsFrom seeds) :
    (∃ taken, n.Exhausts s taken out) ↔
      ∃ ids, n.closure? seeds = some ids ∧ out = ids.toFinset := by
  have hsound := h.sound n
  have hout : ∀ {taken out}, n.Exhausts s taken out → n.Grounded seeds →
      out = (n.closure seeds).toFinset := by
    intro taken out hrun hseeds
    ext q
    rw [hsound.mem_iff hrun, List.mem_toFinset, hseeds.mem_closure_iff]
  constructor
  · rintro ⟨taken, hrun⟩
    have hseeds : n.Grounded seeds := by
      intro r hr q hreach
      have hq : q ∈ out := (hsound.mem_iff hrun).mpr ⟨r, hr, hreach⟩
      exact hrun.lt_size q (h.mem_taken hrun hq)
    exact ⟨_, closure?_eq_some_iff.mpr ⟨hseeds, rfl⟩, hout hrun hseeds⟩
  · rintro ⟨ids, hids, rfl⟩
    obtain ⟨hseeds, rfl⟩ := closure?_eq_some_iff.mp hids
    obtain ⟨taken, out, hrun⟩ := hsound.exists_exhausts hseeds (Nat.le_add_right _ _)
    exact ⟨taken, hout hrun hseeds ▸ hrun⟩

theorem Search.StartsFrom.exhausts (h : s.StartsFrom seeds) (hids : n.closure? seeds = some ids) :
    ∃ taken, taken.Perm ids ∧ n.Exhausts s taken ids.toFinset := by
  obtain ⟨taken, hrun⟩ := h.exhausts_iff.mpr ⟨ids, hids, rfl⟩
  obtain ⟨_, rfl⟩ := closure?_eq_some_iff.mp hids
  have hnodup : (n.closure seeds).Nodup := (pairwise_closure seeds).imp Nat.ne_of_lt
  exact ⟨taken, h.perm_taken hrun hnodup, hrun⟩

/-! ## Laws of the closure -/

theorem Grounded.of_subset {more : List Nat} (h : n.Grounded more)
    (hsubset : ∀ q ∈ seeds, q ∈ more) : n.Grounded seeds :=
  fun r hr => h r (hsubset r hr)

theorem closure_subset {more : List Nat} (hsubset : ∀ q ∈ seeds, q ∈ more) :
    ∀ q ∈ n.closure seeds, q ∈ n.closure more := by
  intro q hq
  obtain ⟨hlt, r, hr, hreach⟩ := mem_closure.mp hq
  exact mem_closure.mpr ⟨hlt, r, hsubset r hr, hreach⟩

/-- Order and repetition of the seeds do not count. -/
theorem closure?_congr {same : List Nat} (hsame : ∀ q, q ∈ same ↔ q ∈ seeds) :
    n.closure? same = n.closure? seeds := by
  have hgrounded : n.Grounded same ↔ n.Grounded seeds :=
    ⟨fun h => h.of_subset fun q => (hsame q).mpr, fun h => h.of_subset fun q => (hsame q).mp⟩
  have hclosure : n.closure same = n.closure seeds := by
    apply (pairwise_closure same).eq_of_mem_iff (pairwise_closure seeds)
    exact fun q => ⟨closure_subset (fun q => (hsame q).mp) q,
      closure_subset (fun q => (hsame q).mpr) q⟩
  ext1 ids
  rw [closure?_eq_some_iff, closure?_eq_some_iff, hgrounded, hclosure]

/-- What is closed stays as it is. -/
theorem closure?_of_closure? (hids : n.closure? seeds = some ids) : n.closure? ids = some ids := by
  obtain ⟨hseeds, rfl⟩ := closure?_eq_some_iff.mp hids
  have hgrounded : n.Grounded (n.closure seeds) := by
    intro p hp q hpq
    obtain ⟨r, hr, hrp⟩ := hseeds.mem_closure_iff.mp hp
    exact hseeds r hr q (hrp.trans hpq)
  refine closure?_eq_some_iff.mpr ⟨hgrounded, ?_⟩
  apply (pairwise_closure _).eq_of_mem_iff (pairwise_closure seeds)
  intro q
  constructor
  · intro hq
    obtain ⟨hlt, p, hp, hpq⟩ := mem_closure.mp hq
    exact closure_of_reach hp hpq hlt
  · exact fun hq => mem_closure.mpr ⟨lt_size_of_mem_closure hq, q, hq, .refl⟩

/-- If the ε-edges lead to existing states and the seeds exist, the closure is answered: it
is the ascending list of what ε-edges reach from the seeds. The search with a stack ends
with the same states, and so does closing the set of the seeds in place, however the set is
listed; either takes each state from the stack once. The answer does not depend on order
and repetition of the seeds, closing it again gives it back, and it grows with the seeds. -/
theorem closure?_canonical (hepsilon : ∀ q, ∀ r ∈ n.epsilonOf q, r < n.size)
    (hseeds : ∀ r ∈ seeds, r < n.size) :
    ∃ ids, n.closure? seeds = some ids ∧
      (∃ taken, taken.Perm ids ∧ n.Exhausts (.ofSeeds seeds) taken ids.toFinset) ∧
      ids.Pairwise (· < ·) ∧
      (∀ q, q ∈ ids ↔ ∃ r ∈ seeds, n.EpsilonReach r q) ∧
      (∀ same, (∀ q, q ∈ same ↔ q ∈ seeds) → n.closure? same = some ids) ∧
      n.closure? ids = some ids ∧
      (∀ more, (∀ r ∈ more, r < n.size) → (∀ q ∈ seeds, q ∈ more) →
        ∃ wider, n.closure? more = some wider ∧ ∀ q ∈ ids, q ∈ wider) ∧
      ∀ listing, listing.Nodup → listing.toFinset = seeds.toFinset →
        ∃ taken, taken.Perm ids ∧ n.Exhausts ⟨seeds.toFinset, listing⟩ taken ids.toFinset := by
  have hgrounded := grounded_of_epsilon hepsilon hseeds
  have hids : n.closure? seeds = some (n.closure seeds) :=
    closure?_eq_some_iff.mpr ⟨hgrounded, rfl⟩
  refine ⟨n.closure seeds, hids, (startsFrom_ofSeeds seeds).exhausts hids, pairwise_closure seeds,
    fun q => hgrounded.mem_closure_iff, ?_, closure?_of_closure? hids, ?_, ?_⟩
  · exact fun same hsame => (closure?_congr hsame).trans hids
  · intro more hmore hsubset
    have hwider := grounded_of_epsilon hepsilon hmore
    exact ⟨n.closure more, closure?_eq_some_iff.mpr ⟨hwider, rfl⟩, closure_subset hsubset⟩
  · exact fun listing hnodup hlisting => (startsFrom_listing hnodup hlisting).exhausts hids

/-- Two states on a cycle of ε-edges, a third behind them and a fourth in front. A labelled
edge leads to a missing state. -/
def roundabout : Nfa :=
  ⟨#[{ epsilon := [1] }, { epsilon := [2, 0] }, { edges := [(120, 9)] }, { epsilon := [1] }]⟩

/-- The cycle does not keep the search from ending, and the labelled edge is not followed. -/
theorem closure?_canonical_roundabout :
    (∀ q, ∀ r ∈ roundabout.epsilonOf q, r < roundabout.size) ∧
    roundabout.closure? [2, 0, 2] = some [0, 1, 2] ∧
    roundabout.closure? [0, 2] = some [0, 1, 2] ∧
    (∃ taken, taken.Perm [0, 1, 2] ∧
      roundabout.Exhausts (.ofSeeds [2, 0, 2]) taken {0, 1, 2}) ∧
    (∃ taken, taken.Perm [0, 1, 2] ∧ roundabout.Exhausts ⟨{0, 2}, [2, 0]⟩ taken {0, 1, 2}) ∧
    ∃ wider, roundabout.closure? [3, 2, 0] = some wider ∧ ∀ q ∈ [0, 1, 2], q ∈ wider := by
  have hepsilon : ∀ q, ∀ r ∈ roundabout.epsilonOf q, r < roundabout.size := by
    have hstates : ∀ q < roundabout.size, ∀ r ∈ roundabout.epsilonOf q, r < roundabout.size := by
      decide
    exact fun q r hr => hstates q (lt_size_of_mem_epsilonOf hr) r hr
  have hseeds : ∀ r ∈ [2, 0, 2], r < roundabout.size := by decide
  obtain ⟨ids, hids, hsearch, hascending, hmem, hsame, _, hmore, hplace⟩ :=
    closure?_canonical hepsilon hseeds
  obtain rfl : ids = [0, 1, 2] := by
    have hrun : roundabout.Exhausts (.ofSeeds [2, 0, 2]) [0, 1, 2] {1, 0, 2} :=
      .next rfl (.next rfl (.next rfl (.done rfl)))
    apply hascending.eq_of_mem_iff (by decide)
    intro q
    rw [hmem, ← ((startsFrom_ofSeeds [2, 0, 2]).sound roundabout).mem_iff hrun]
    simp [or_left_comm]
  exact ⟨hepsilon, hids, hsame [0, 2] (by simp [or_comm]), hsearch,
    hplace [2, 0] (by decide) (by decide), hmore [3, 2, 0] (by decide) (by decide)⟩

end Munch.Nfa
