import Mathlib.Data.List.Sort
import Munch.Proofs.Determinize
import Munch.Proofs.Dfa.Loaded

/-!
# States and sets of ids

A state stands for a set of ids, and its origin lists the set. In a `Canonical` table each
origin is ascending without repetition, so that there is one list for each set, and no two
states have the same set. The subset construction makes such tables only.

Loading puts origins in order but leaves repeated ids in place, and it compares origins as
lists. So what is loaded is told apart with repetitions counted, and it is canonical iff
no stored origin repeats an id (`ofBytes_canonical_iff`).
-/

namespace Munch

namespace Dfa

variable {d : Dfa}

/-- Each set of ids has one list, and at most one state. -/
structure Canonical (d : Dfa) : Prop where
  ascending : ∀ id < d.size, (d.originOf id).Pairwise (· < ·)
  sets : ∀ i < d.size, ∀ j < d.size, (∀ q, q ∈ d.originOf i ↔ q ∈ d.originOf j) → i = j

/-- Distinct lists are distinct sets where the lists are ascending. -/
theorem Distinct.canonical_iff (h : d.Distinct) :
    d.Canonical ↔ ∀ id < d.size, (d.originOf id).Pairwise (· < ·) := by
  refine ⟨Canonical.ascending, fun hascending => ⟨hascending, fun i hi j hj hsame => ?_⟩⟩
  exact h i hi j hj ((hascending i hi).eq_of_mem_iff (hascending j hj) hsame)

/-- The origins of the subset construction are closures, which are ascending. -/
theorem canonical_of_tableOf {n : Nfa} {root : Nat} (h : n.TableOf root d) : d.Canonical := by
  rw [Distinct.canonical_iff h.distinct]
  intro id hid
  obtain ⟨seeds, hseeds⟩ := h.closed id hid
  rw [hseeds]
  exact n.pairwise_closure seeds

end Dfa

namespace StoredTable

variable {t : StoredTable} {d : Dfa}

theorem distinct_of_toDfa (h : t.toDfa = .ok d) : d.Distinct := by
  obtain ⟨_, _, _, _, hnodup⟩ := toDfa_eq_ok_iff.mp h
  exact Dfa.nodup_origins_iff.mp hnodup

/-- An origin of the result has the ids of the stored one in order, as often as they are
stored. -/
theorem originOf_of_toDfa (h : t.toDfa = .ok d) {i : Nat} {s : StoredState}
    (hs : t.states[i]? = some s) :
    (d.originOf i).Perm s.origin ∧ (d.originOf i).Pairwise (· ≤ ·) := by
  obtain ⟨_, _, hcopies⟩ := copies_of_toDfa h
  obtain ⟨state, hstate, hcopied, _⟩ := hcopies i s hs
  rw [Dfa.originOf, hstate, Option.elim_some]
  exact ⟨hcopied.origin, hcopied.ascending⟩

theorem exists_stored_of_toDfa (h : t.toDfa = .ok d) {i : Nat} (hi : i < d.size) :
    ∃ s, t.states[i]? = some s := by
  rw [(copies_of_toDfa h).1] at hi
  exact ⟨_, List.getElem?_eq_getElem hi⟩

/-- The result is canonical iff no stored origin repeats an id. -/
theorem canonical_toDfa_iff (h : t.toDfa = .ok d) :
    d.Canonical ↔ ∀ s ∈ t.states, s.origin.Nodup := by
  rw [(distinct_of_toDfa h).canonical_iff]
  refine ⟨fun hascending s hs => ?_, fun hnodup id hid => ?_⟩
  · obtain ⟨i, hi, rfl⟩ := List.getElem_of_mem hs
    have hid : i < d.size := (copies_of_toDfa h).1 ▸ hi
    obtain ⟨hperm, _⟩ := originOf_of_toDfa h (List.getElem?_eq_getElem hi)
    exact hperm.nodup_iff.mp ((hascending i hid).imp Nat.ne_of_lt)
  · obtain ⟨s, hs⟩ := exists_stored_of_toDfa h hid
    obtain ⟨hperm, hle⟩ := originOf_of_toDfa h hs
    have hne : (d.originOf id).Nodup := hperm.nodup_iff.mpr (hnodup s (List.mem_of_getElem? hs))
    exact (hle.and hne).imp fun hle_ne => Nat.lt_of_le_of_ne hle_ne.1 hle_ne.2

end StoredTable

namespace Dfa

/-- What is loaded has its origins in order, no two with the same ids equally often. It
is canonical iff no stored origin repeats an id. The tables of the subset construction are
all canonical. -/
theorem ofBytes_canonical_iff (data : List UInt8) (r : RootedNfa) :
    (∀ d, ofBytes data = .ok d →
      (∀ id < d.size, (d.originOf id).Pairwise (· ≤ ·)) ∧
      (∀ i < d.size, ∀ j < d.size, (d.originOf i).Perm (d.originOf j) → i = j) ∧
      ∃ t, (Json.parse? data).bind StoredTable.ofJson? = some t ∧
        (d.Canonical ↔ ∀ s ∈ t.states, s.origin.Nodup)) ∧
    r.determinize.Canonical := by
  refine ⟨fun d hd => ?_, canonical_of_tableOf r.determinize_tableOf⟩
  obtain ⟨t, ht, htable⟩ := exists_toDfa_of_ofBytes hd
  have hascending : ∀ id < d.size, (d.originOf id).Pairwise (· ≤ ·) := by
    intro id hid
    obtain ⟨s, hs⟩ := StoredTable.exists_stored_of_toDfa htable hid
    exact (StoredTable.originOf_of_toDfa htable hs).2
  refine ⟨hascending, fun i hi j hj hperm => ?_, t, ht, StoredTable.canonical_toDfa_iff htable⟩
  apply StoredTable.distinct_of_toDfa htable i hi j hj
  exact hperm.eq_of_pairwise (fun _ _ _ _ => Nat.le_antisymm) (hascending i hi) (hascending j hj)

/-! ## Repeated ids -/

/-- Two states with these origins, without edges and tags. -/
def bare (origin origin' : List Nat) : StoredTable where
  start := 0
  states := [⟨origin, Vector.replicate 95 noEdge, none, none⟩,
    ⟨origin', Vector.replicate 95 noEdge, none, none⟩]

theorem small_bare {origin origin' : List Nat} (h : ∀ q ∈ origin, q ≤ Json.maxStored)
    (h' : ∀ q ∈ origin', q ≤ Json.maxStored) : (bare origin origin').Small := by
  have hnext : ∀ target ∈ (Vector.replicate 95 noEdge).toList, target ≤ Json.maxStored := by
    decide +kernel
  refine ⟨Nat.zero_le _, ?_⟩
  simp only [bare, List.forall_mem_cons, List.not_mem_nil, IsEmpty.forall_iff, implies_true,
    and_true]
  exact ⟨⟨h, hnext, by simp⟩, ⟨h', hnext, by simp⟩⟩

theorem exists_ofBytes_bare {origin origin' : List Nat} (hsmall : (bare origin origin').Small)
    (hne : origin.length ≠ origin'.length) :
    ∃ d, (bare origin origin').toDfa = .ok d ∧
      ofBytes (bare origin origin').toJson.render = .ok d := by
  have hvalid : (bare origin origin').Valid := by
    refine ⟨by simp [bare], by simp [bare], by simp [bare], ?_, by simp [bare]⟩
    simp only [bare, List.pairwise_pair, StoredState.sortedOrigin]
    intro heq
    have hlength := congrArg List.length heq
    rw [List.length_mergeSort, List.length_mergeSort] at hlength
    exact hne hlength
  obtain ⟨d, hd⟩ := StoredTable.exists_toDfa_iff.mpr hvalid
  refine ⟨d, hd, ?_⟩
  rw [ofBytes_render hsmall, hd]
  rfl

/-- No id is repeated in either origin, so the table is canonical. -/
theorem ofBytes_canonical_iff_bare :
    (∃ d, ofBytes (bare [7, 3] [3]).toJson.render = .ok d ∧ d.Canonical) ∧
    RootedNfa.rivals.determinize.Canonical := by
  have hsmall : (bare [7, 3] [3]).Small := small_bare (by decide) (by decide)
  obtain ⟨d, _, hload⟩ := exists_ofBytes_bare hsmall (by decide)
  obtain ⟨hloaded, hbuilt⟩ :=
    ofBytes_canonical_iff (bare [7, 3] [3]).toJson.render RootedNfa.rivals
  obtain ⟨_, _, t, ht, hiff⟩ := hloaded d hload
  rw [StoredTable.written_toJson _ |>.parse?_render, Option.bind_some,
    StoredTable.ofJson?_toJson hsmall] at ht
  obtain rfl := Option.some.inj ht
  exact ⟨⟨d, hload, hiff.mpr (by decide)⟩, hbuilt⟩

/-- A table is loaded of which one origin repeats an id and has the same set as the
other one. -/
theorem not_canonical_repeated : ∃ d,
    ofBytes (bare [3] [3, 3]).toJson.render = .ok d ∧ d.size = 2 ∧
    ¬(d.originOf 1).Pairwise (· < ·) ∧ ∀ q, q ∈ d.originOf 0 ↔ q ∈ d.originOf 1 := by
  obtain ⟨d, hd, hload⟩ := exists_ofBytes_bare (small_bare (by decide) (by decide))
    (show [3].length ≠ [3, 3].length by decide)
  obtain ⟨hfirst, _⟩ := StoredTable.originOf_of_toDfa hd (i := 0) rfl
  obtain ⟨hsecond, _⟩ := StoredTable.originOf_of_toDfa hd (i := 1) rfl
  refine ⟨d, hload, (StoredTable.copies_of_toDfa hd).1, fun hlt => ?_, fun q => ?_⟩
  · have hnodup := hsecond.nodup_iff.mp (hlt.imp Nat.ne_of_lt)
    exact absurd hnodup (by decide)
  · rw [hfirst.mem_iff, hsecond.mem_iff]
    simp

end Dfa

end Munch
