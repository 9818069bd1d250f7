import Mathlib.Data.List.Forall2
import Mathlib.Data.List.Nodup
import Munch.Proofs.Dfa.Rebuilt
import Munch.Proofs.Json.RoundTrip

/-!
# Stored tables are read back

A state and a table are read back from their JSON objects if their numbers are at most
`Json.maxStored` (`StoredTable.ofJson?_toJson`), and what is read has such numbers only
(`StoredTable.small_of_ofJson?`). What the checks behind the shape accept, and what they
make of it, is said by `StoredTable.toDfa_eq_ok_iff`. From the three follow the tables
that loading gives back as they were saved (`Dfa.Storable`), among them all that were
loaded (`Dfa.storable_of_ofBytes`).
-/

namespace Munch

/-! ## Lists of readings -/

section Lists

variable {α β : Type}

theorem mapM_map_of_forall {read : β → Option α} {write : α → β} {xs : List α}
    (h : ∀ x ∈ xs, read (write x) = some x) : (xs.map write).mapM read = some xs := by
  induction xs with
  | nil => rfl
  | cons x xs ih =>
    rw [List.forall_mem_cons] at h
    rw [List.map_cons, List.mapM_cons, h.1, ih h.2]
    rfl

theorem exists_of_mapM_eq_some {read : α → Option β} {xs : List α} {ys : List β}
    (h : xs.mapM read = some ys) : ∀ y ∈ ys, ∃ x, read x = some y := by
  induction xs generalizing ys with
  | nil =>
    obtain rfl := Option.some.inj h
    exact fun y hy => absurd hy List.not_mem_nil
  | cons x xs ih =>
    simp only [List.mapM_cons, Option.bind_eq_bind, Option.bind_eq_some_iff, Option.pure_def,
      Option.some.injEq] at h
    obtain ⟨first, hfirst, more, hmore, rfl⟩ := h
    rw [List.forall_mem_cons]
    exact ⟨⟨x, hfirst⟩, ih hmore⟩

end Lists

/-! ## Parts of a record -/

namespace Json

variable {j : Json}

theorem stored?_nat {n : Nat} (h : n ≤ maxStored) : (nat n).stored? = some n := by
  rw [stored?, natUpTo?, nat?_nat, Option.filter_some, if_pos (decide_eq_true h)]

theorem le_of_stored? {n : Nat} (h : j.stored? = some n) : n ≤ maxStored := by
  rw [stored?, natUpTo?, Option.filter_eq_some_iff] at h
  exact decide_eq_true_iff.mp h.2

theorem optional?_elim {α : Type} {read : Json → Option α} {write : α → Json} {x : Option α}
    (h : ∀ a ∈ x, read (write a) = some a ∧ write a ≠ null) :
    (x.elim null write).optional? read = some x := by
  cases x with
  | none => rfl
  | some a =>
    obtain ⟨hread, hne⟩ := h a rfl
    rw [Option.elim_some, optional?, hread, Option.map_some]
    exact hne

theorem exists_of_optional? {α : Type} {read : Json → Option α} {x : Option α}
    (h : j.optional? read = some x) : ∀ a ∈ x, ∃ j', read j' = some a := by
  intro a ha
  unfold optional? at h
  split at h
  · obtain rfl := Option.some.inj h
    cases ha
  · obtain ⟨a', hread, rfl⟩ := Option.map_eq_some_iff.mp h
    obtain rfl := Option.some.inj ha
    exact ⟨_, hread⟩

theorem listOf?_map {α : Type} {read : Json → Option α} {write : α → Json} {xs : List α}
    (h : ∀ x ∈ xs, read (write x) = some x) : (array (xs.map write)).listOf? read = some xs :=
  mapM_map_of_forall h

theorem exists_of_listOf? {α : Type} {read : Json → Option α} {xs : List α}
    (h : j.listOf? read = some xs) : ∀ x ∈ xs, ∃ j', read j' = some x := by
  rw [listOf?, Option.bind_eq_some_iff] at h
  obtain ⟨js, _, h⟩ := h
  exact exists_of_mapM_eq_some h

theorem fields?_ofFields (fields : List (String × Json)) :
    (ofFields fields).fields? = some fields := by
  apply mapM_map_of_forall
  intro f _
  rw [unescape?_escape]
  rfl

/-- A record that is written as an object is read by its keys. -/
theorem record?_ofFields (keys : List String) (fields : List (String × Json)) :
    (ofFields fields).record? keys = keys.mapM fun key =>
      match fields.filter (·.1 = key) with
      | [] => some none
      | [f] => some (some f.2)
      | _ => none := by
  have hselect : (ofFields fields).record? keys = (ofFields fields).select? keys := rfl
  rw [hselect, select?, fields?_ofFields]
  rfl

end Json

/-! ## States and tables as JSON -/

/-- The numbers of a state are small enough to be stored. -/
structure StoredState.Small (s : StoredState) : Prop where
  origin : ∀ id ∈ s.origin, id ≤ Json.maxStored
  next : ∀ target ∈ s.next.toList, target ≤ Json.maxStored
  priority : ∀ priority ∈ s.priority, priority ≤ Json.maxStored

/-- The numbers of a table are small enough to be stored. -/
structure StoredTable.Small (t : StoredTable) : Prop where
  start : t.start ≤ Json.maxStored
  states : ∀ s ∈ t.states, s.Small

theorem StoredState.written_toJson (s : StoredState) : s.toJson.Written := by
  have hnats : ∀ ns : List Nat, (Json.array (ns.map .nat)).Written :=
    fun ns => .array (List.forall_mem_map.mpr fun n _ => .nat n)
  have htoken : (s.token.elim Json.null Json.text).Written := by
    cases s.token with
    | none => exact .null
    | some token => exact .text token
  have hpriority : (s.priority.elim Json.null Json.nat).Written := by
    cases s.priority with
    | none => exact .null
    | some priority => exact .nat priority
  apply Json.Written.ofFields
  simp only [List.forall_mem_cons, List.not_mem_nil, IsEmpty.forall_iff, implies_true, and_true]
  exact ⟨hnats _, hnats _, htoken, hpriority⟩

theorem StoredTable.written_toJson (t : StoredTable) : t.toJson.Written := by
  apply Json.Written.ofFields
  simp only [List.forall_mem_cons, List.not_mem_nil, IsEmpty.forall_iff, implies_true, and_true]
  exact ⟨.nat _, .array (List.forall_mem_map.mpr fun s _ => s.written_toJson)⟩

theorem StoredState.row?_map {next : Vector Nat 95}
    (h : ∀ target ∈ next.toList, target ≤ Json.maxStored) :
    row? (.array (next.toList.map .nat)) = some next := by
  have hlist := Json.listOf?_map fun target ht => Json.stored?_nat (h target ht)
  have hlength : next.toList.length = 95 := Vector.length_toList
  rw [row?, hlist, Option.bind_eq_bind, Option.bind_some, dif_pos hlength]
  rfl

/-- A state is read back from its object. -/
theorem StoredState.ofJson?_toJson {s : StoredState} (h : s.Small) : ofJson? s.toJson = some s := by
  have horigin := Json.listOf?_map fun id hid => Json.stored?_nat (h.origin id hid)
  have hnext := row?_map h.next
  have htoken : (s.token.elim Json.null Json.text).optional? Json.text? = some s.token :=
    Json.optional?_elim fun token _ => ⟨Json.unescape?_escape token, by simp [Json.text]⟩
  have hpriority : (s.priority.elim Json.null Json.nat).optional? Json.stored? = some s.priority :=
    Json.optional?_elim fun priority hp =>
      ⟨Json.stored?_nat (h.priority priority hp), by simp [Json.nat]⟩
  have hrecord : s.toJson.record? ["origin", "next", "token", "priority"] =
      some [some (.array (s.origin.map .nat)), some (.array (s.next.toList.map .nat)),
        some (s.token.elim .null .text), some (s.priority.elim .null .nat)] := by
    rw [toJson, Json.record?_ofFields]
    rfl
  simp only [ofJson?, hrecord, Option.bind_eq_bind, Option.bind_some, horigin, hnext,
    Option.getD_some, htoken, hpriority]

/-- A table is read back from its object. -/
theorem StoredTable.ofJson?_toJson {t : StoredTable} (h : t.Small) : ofJson? t.toJson = some t := by
  have hstates := Json.listOf?_map fun s hs => StoredState.ofJson?_toJson (h.states s hs)
  have hrecord : t.toJson.record? ["start", "states"] =
      some [some (.nat t.start), some (.array (t.states.map StoredState.toJson))] := by
    rw [toJson, Json.record?_ofFields]
    rfl
  simp only [ofJson?, hrecord, Option.bind_eq_bind, Option.bind_some, Json.stored?_nat h.start,
    hstates]

theorem StoredState.next_le_of_row? {j : Json} {next : Vector Nat 95} (h : row? j = some next) :
    ∀ target ∈ next.toList, target ≤ Json.maxStored := by
  rw [row?, Option.bind_eq_bind, Option.bind_eq_some_iff] at h
  obtain ⟨entries, hentries, h⟩ := h
  rw [Option.dite_none_right_eq_some] at h
  obtain ⟨_, hnext⟩ := h
  obtain rfl := Option.some.inj hnext
  intro target htarget
  obtain ⟨_, hread⟩ := Json.exists_of_listOf? hentries target htarget
  exact Json.le_of_stored? hread

/-- What is read is small enough to be stored. -/
theorem StoredState.small_of_ofJson? {j : Json} {s : StoredState} (h : ofJson? j = some s) :
    s.Small := by
  unfold ofJson? at h
  simp only [Option.bind_eq_bind, Option.bind_eq_some_iff] at h
  obtain ⟨parts, _, h⟩ := h
  split at h
  · simp only [Option.bind_eq_some_iff, Option.some.injEq] at h
    obtain ⟨origin, horigin, next, hnext, token, _, priority, hpriority, rfl⟩ := h
    refine ⟨fun id hid => ?_, next_le_of_row? hnext, fun p hp => ?_⟩
    · obtain ⟨_, hread⟩ := Json.exists_of_listOf? horigin id hid
      exact Json.le_of_stored? hread
    · obtain ⟨_, hread⟩ := Json.exists_of_optional? hpriority p hp
      exact Json.le_of_stored? hread
  · cases h

theorem StoredTable.small_of_ofJson? {j : Json} {t : StoredTable} (h : ofJson? j = some t) :
    t.Small := by
  unfold ofJson? at h
  simp only [Option.bind_eq_bind, Option.bind_eq_some_iff] at h
  obtain ⟨parts, _, h⟩ := h
  split at h
  · simp only [Option.bind_eq_some_iff, Option.some.injEq] at h
    obtain ⟨start, hstart, states, hstates, rfl⟩ := h
    refine ⟨Json.le_of_stored? hstart, fun s hs => ?_⟩
    obtain ⟨_, hread⟩ := Json.exists_of_listOf? hstates s hs
    exact StoredState.small_of_ofJson? hread
  · cases h

/-! ## Tables that can be stored -/

/-- A state of a table with `size` states whose numbers can be stored, with an
ascending origin and without stray edges. -/
structure Dfa.State.Storable (size : Nat) (s : Dfa.State) : Prop where
  sorted : s.origin.Pairwise (· ≤ ·)
  origin_le : ∀ id ∈ s.origin, id ≤ Json.maxStored
  priority_le : ∀ tag ∈ s.accept, tag.priority ≤ Json.maxStored
  edge : ∀ target, some target ∈ s.row → target < size ∧ target < Dfa.noEdge

/-- A table that loading gives back as it was saved. -/
structure Dfa.Storable (d : Dfa) : Prop where
  start_lt : d.start < d.size
  start_le : d.start ≤ Json.maxStored
  distinct : d.origins.Nodup
  states : ∀ s ∈ d.states.toList, s.Storable d.size

namespace Dfa

variable {d : Dfa}

theorem State.mem_next_ofState {s : State} {target : Nat}
    (h : target ∈ (StoredState.ofState s).next.toList) : target = noEdge ∨ some target ∈ s.row := by
  rw [StoredState.ofState, Vector.toList_map, List.mem_map] at h
  obtain ⟨entry, hentry, rfl⟩ := h
  cases entry with
  | none => exact .inl rfl
  | some target => exact .inr (Vector.mem_toList_iff.mp hentry)

theorem State.Storable.small_ofState {size : Nat} {s : State} (h : s.Storable size) :
    (StoredState.ofState s).Small := by
  refine ⟨h.origin_le, ?_, ?_⟩
  · intro target htarget
    rcases mem_next_ofState htarget with rfl | hentry
    · exact Nat.le_refl _
    · exact Nat.le_of_lt (h.edge target hentry).2
  · intro priority hpriority
    obtain ⟨tag, htag, rfl⟩ := Option.map_eq_some_iff.mp hpriority
    exact h.priority_le tag htag

theorem State.Storable.becomes_ofState {size : Nat} {s : State} (h : s.Storable size) :
    (StoredState.ofState s).Becomes s := by
  refine ⟨?_, ?_, ?_⟩
  · have hsorted : s.origin.Pairwise fun a b => decide (a ≤ b) = true :=
      h.sorted.imp decide_eq_true
    exact (List.mergeSort_of_pairwise hsorted).symm
  · have hentry : ∀ entry ∈ s.row, edge? (entry.getD noEdge) = id entry := by
      intro entry hentry
      cases entry with
      | none => rfl
      | some target => exact if_neg (Nat.ne_of_lt (h.edge target hentry).2)
    rw [StoredState.row, StoredState.ofState, Vector.map_map]
    exact ((Vector.map_congr_left hentry).trans (Vector.map_id _)).symm
  · cases haccept : s.accept with
    | none => simp only [StoredState.tag?, StoredState.ofState, haccept, Option.map_none]
    | some tag => simp only [StoredState.tag?, StoredState.ofState, haccept, Option.map_some]

theorem Storable.small_ofDfa (h : d.Storable) : (StoredTable.ofDfa d).Small := by
  refine ⟨h.start_le, ?_⟩
  rw [StoredTable.ofDfa, List.forall_mem_map]
  exact fun s hs => (h.states s hs).small_ofState

theorem Storable.toDfa_ofDfa (h : d.Storable) : (StoredTable.ofDfa d).toDfa = .ok d := by
  have hlength : (StoredTable.ofDfa d).states.length = d.size := List.length_map _
  rw [StoredTable.toDfa_eq_ok_iff, StoredTable.strayEdge?_eq_none_iff, hlength]
  refine ⟨h.start_lt, ?_, rfl, ?_, h.distinct⟩
  · rw [StoredTable.ofDfa, List.forall_mem_map]
    intro s hs target htarget hne
    rcases State.mem_next_ofState htarget with rfl | hentry
    · exact absurd rfl hne
    · exact ((h.states s hs).edge target hentry).1
  · rw [StoredTable.ofDfa, List.forall₂_map_left_iff, List.forall₂_same]
    exact fun s hs => (h.states s hs).becomes_ofState

/-- A written table is checked as it was before it was written. -/
theorem ofBytes_render {t : StoredTable} (h : t.Small) :
    ofBytes t.toJson.render = t.toDfa.mapError .table := by
  rw [ofBytes, t.written_toJson.parse?_render, Option.bind_some, StoredTable.ofJson?_toJson h]

/-- A table that can be stored is loaded as it was saved. -/
theorem Storable.ofBytes_toBytes (h : d.Storable) : ofBytes d.toBytes = .ok d := by
  rw [toBytes, ofBytes_render h.small_ofDfa, h.toDfa_ofDfa]
  rfl

/-! ## Tables that were loaded -/

theorem State.storable_of_becomes {size : Nat} {s : StoredState} {state : State} (hs : s.Small)
    (hedges : ∀ target ∈ s.next.toList, target ≠ noEdge → target < size)
    (h : s.Becomes state) : state.Storable size := by
  refine ⟨?_, ?_, ?_, ?_⟩
  · rw [h.origin]
    exact s.pairwise_sortedOrigin
  · intro id hid
    rw [h.origin, StoredState.sortedOrigin, List.mem_mergeSort] at hid
    exact hs.origin id hid
  · intro tag htag
    exact hs.priority _ (StoredState.priority_of_tag? (h.tag.trans (congrArg some htag)))
  · intro target htarget
    rw [h.row, StoredState.row, Vector.mem_map] at htarget
    obtain ⟨entry, hentry, hedge⟩ := htarget
    rw [edge?, Option.ite_none_left_eq_some] at hedge
    obtain ⟨hne, hsome⟩ := hedge
    obtain rfl := Option.some.inj hsome
    have hmem := Vector.mem_toList_iff.mpr hentry
    exact ⟨hedges entry hmem hne, Nat.lt_of_le_of_ne (hs.next entry hmem) hne⟩

theorem storable_of_toDfa {t : StoredTable} (ht : t.Small) (h : t.toDfa = .ok d) : d.Storable := by
  obtain ⟨hstart, hstray, hd, hbecomes, hnodup⟩ := StoredTable.toDfa_eq_ok_iff.mp h
  rw [StoredTable.strayEdge?_eq_none_iff] at hstray
  have hlength : t.states.length = d.size := hbecomes.length_eq
  rw [hlength] at hstart hstray
  refine ⟨hd ▸ hstart, hd ▸ ht.start, hnodup, fun state hstate => ?_⟩
  obtain ⟨position, hposition, rfl⟩ := List.getElem_of_mem hstate
  have hstored : position < t.states.length := hlength ▸ hposition
  exact State.storable_of_becomes (ht.states _ (List.getElem_mem hstored))
    (hstray _ (List.getElem_mem hstored)) (hbecomes.get hstored hposition)

/-- What is loaded comes from a stored table that is in order. -/
theorem exists_toDfa_of_ofBytes {data : List UInt8} (h : ofBytes data = .ok d) :
    ∃ t, (Json.parse? data).bind StoredTable.ofJson? = some t ∧ t.toDfa = .ok d := by
  unfold ofBytes at h
  split at h
  · cases h
  · rename_i t ht
    refine ⟨t, ht, ?_⟩
    cases htable : t.toDfa with
    | error e =>
      rw [htable] at h
      cases h
    | ok d' =>
      rw [htable] at h
      exact congrArg _ (Except.ok.inj h)

/-- What loading gives can be stored. -/
theorem storable_of_ofBytes {data : List UInt8} (h : ofBytes data = .ok d) : d.Storable := by
  obtain ⟨t, ht, htable⟩ := exists_toDfa_of_ofBytes h
  obtain ⟨j, _, hj⟩ := Option.bind_eq_some_iff.mp ht
  exact storable_of_toDfa (StoredTable.small_of_ofJson? hj) htable

end Dfa

end Munch
