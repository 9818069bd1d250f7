import Mathlib.Data.List.FinRange
import Mathlib.Data.List.Forall2
import Mathlib.Data.List.Induction
import Mathlib.Data.List.Nodup
import Mathlib.Data.List.Sort
import Munch.Dfa.Stored
import Munch.Proofs.Dfa.View

/-!
# Tables rebuilt from stored states

`StoredTable.toDfa` inserts the stored states without their edges, and then writes the
entries one at a time, each through the byte of its column. A whole row that is written
so is the stored one (`StoredState.foldl_putEntry`), and a loop over rows ends at the
first entry that leads out of the table (`StoredTable.strayEdge?`). So loading comes to
what appending every state together with its row comes to, and where that is refused, it
is refused with the same error (`StoredTable.toDfa_of_start_lt`). What is accepted, and
what becomes of it, is said by `StoredTable.toDfa_eq_ok_iff`.
-/

namespace Munch

/-- A loop that goes on with the next value unless there is a fault in the element: it
ends at the first fault, or comes to the value after all elements. -/
theorem foldlM_eq_elim_findSome? {α β ε : Type} {step : β → α → Except ε β}
    {fault? : α → Option ε} {next : β → α → β}
    (h : ∀ b a, step b a = (fault? a).elim (.ok (next b a)) .error) (elements : List α) (b : β) :
    elements.foldlM step b =
      (elements.findSome? fault?).elim (.ok (elements.foldl next b)) .error := by
  induction elements generalizing b with
  | nil => rfl
  | cons a elements ih =>
    rw [List.foldlM_cons, h, List.findSome?_cons]
    cases fault? a with
    | some e => rfl
    | none => exact ih (next b a)

/-! ## Stored states -/

theorem StoredState.pairwise_sortedOrigin (s : StoredState) : s.sortedOrigin.Pairwise (· ≤ ·) :=
  List.pairwise_mergeSort' (· ≤ ·) s.origin

theorem StoredState.priority_of_tag? {s : StoredState} {tag : Tag} (h : s.tag? = some (some tag)) :
    s.priority = some tag.priority := by
  unfold tag? at h
  split at h
  · rename_i token priority _ hpriority
    rw [hpriority, ← Option.some.inj (Option.some.inj h)]
  · cases h
  · cases h

/-- The state that a stored one becomes. -/
structure StoredState.Becomes (s : StoredState) (state : Dfa.State) : Prop where
  origin : state.origin = s.sortedOrigin
  row : state.row = s.row
  tag : s.tag? = some state.accept

/-- What becoming keeps of each state, it keeps of all. -/
theorem StoredState.map_eq_of_becomes {α : Type} {f : Dfa.State → α} {g : StoredState → α}
    (hfg : ∀ s state, Becomes s state → f state = g s) {ss : List StoredState}
    {states : List Dfa.State} (h : List.Forall₂ Becomes ss states) : states.map f = ss.map g := by
  induction h with
  | nil => rfl
  | cons hstate _ ih => rw [List.map_cons, List.map_cons, hfg _ _ hstate, ih]

namespace Dfa

/-- The origins of all states, in order. -/
def origins (d : Dfa) : List (List Nat) :=
  d.states.toList.map State.origin

theorem idOf?_eq_none_iff {d : Dfa} {origin : List Nat} :
    d.idOf? origin = none ↔ origin ∉ d.origins := by
  rw [idOf?, Array.findIdx?_eq_none_iff, origins, List.mem_map]
  simp only [beq_eq_false_iff_ne, Array.mem_toList_iff, not_exists, not_and]

theorem getElem?_origins {d : Dfa} {id : Nat} (h : id < d.size) :
    d.origins[id]? = some (d.originOf id) := by
  obtain ⟨s, hs⟩ := exists_state? h
  rw [origins, List.getElem?_map, Array.getElem?_toList, originOf, hs, Option.elim_some]
  exact congrArg (Option.map State.origin) hs

theorem nodup_origins_iff {d : Dfa} : d.origins.Nodup ↔ d.Distinct := by
  have hlength : d.origins.length = d.size := List.length_map _
  constructor
  · intro h i hi j hj hij
    apply (List.getElem?_inj (hlength ▸ hi) h).mp
    rw [getElem?_origins hi, getElem?_origins hj, hij]
  · intro h
    rw [List.nodup_iff_getElem?_ne_getElem?]
    intro i j hij hj heq
    rw [hlength] at hj
    have hi := Nat.lt_trans hij hj
    rw [getElem?_origins hi, getElem?_origins hj] at heq
    exact absurd (h i hi j hj (Option.some.inj heq)) (Nat.ne_of_lt hij)

/-- The table with more states. -/
def appendAll (d : Dfa) (states : List State) : Dfa :=
  { d with states := (d.states.toList ++ states).toArray }

theorem appendAll_nil (d : Dfa) : d.appendAll [] = d := by
  rw [appendAll, List.append_nil]

theorem appendAll_cons (d : Dfa) (s : State) (states : List State) :
    d.appendAll (s :: states) = (d.append s).appendAll states := by
  simp only [appendAll, append, Array.toList_push, List.append_assoc, List.singleton_append]

theorem origins_appendAll (d : Dfa) (states : List State) :
    (d.appendAll states).origins = d.origins ++ states.map State.origin :=
  List.map_append

theorem nodup_origins_append {d : Dfa} {s : State} :
    (d.append s).origins.Nodup ↔ d.origins.Nodup ∧ s.origin ∉ d.origins := by
  rw [← appendAll_nil (d.append s), ← appendAll_cons, origins_appendAll, List.map_singleton,
    List.nodup_append_comm, List.singleton_append, List.nodup_cons, and_comm]

end Dfa

/-! ## Rows -/

namespace Dfa

variable {d d' : Dfa}

theorem ext_state? (hstart : d.start = d'.start) (h : ∀ id, d.state? id = d'.state? id) :
    d = d' := by
  obtain ⟨states, start⟩ := d
  obtain ⟨states', start'⟩ := d'
  obtain rfl : start = start' := hstart
  obtain rfl : states = states' := Array.ext_getElem? h
  rfl

/-- The table with another row of one state. -/
def modifyRow (d : Dfa) (id : Nat) (f : Row → Row) : Dfa :=
  { d with states := d.states.modify id fun s => { s with row := f s.row } }

theorem state?_modifyRow (d : Dfa) (id : Nat) (f : Row → Row) (other : Nat) :
    (d.modifyRow id f).state? other =
      if id = other then (d.state? other).map fun s => { s with row := f s.row }
      else d.state? other :=
  Array.getElem?_modify

theorem modifyRow_id (d : Dfa) (id : Nat) : d.modifyRow id (fun row => row) = d := by
  refine ext_state? rfl fun other => ?_
  rw [state?_modifyRow]
  split
  · exact Option.map_id'
  · rfl

theorem modifyRow_modifyRow (d : Dfa) (id : Nat) (f g : Row → Row) :
    (d.modifyRow id f).modifyRow id g = d.modifyRow id fun row => g (f row) := by
  refine ext_state? rfl fun other => ?_
  rw [state?_modifyRow, state?_modifyRow, state?_modifyRow]
  split
  · rw [Option.map_map]
    rfl
  · rfl

theorem setEdge_symbol (d : Dfa) (id : Nat) (column : Column) (target : Nat) :
    d.setEdge id (Alphabet.symbol column) target =
      d.modifyRow id fun row => row.setIfInBounds column (edge? target) := by
  have hset : ∀ row : Row, row.set column (edge? target) column.isLt =
      row.setIfInBounds column (edge? target) := by
    intro row
    apply Vector.ext
    intro i hi
    rw [Vector.getElem_set, Vector.getElem_setIfInBounds]
  rw [setEdge, link, Alphabet.index?_symbol]
  simp only [hset, modifyRow]

/-! ## States without edges -/

/-- The state without its edges. -/
def State.withoutEdges (s : State) : State :=
  { s with row := emptyRow }

/-- The table without its edges. -/
def withoutEdges (d : Dfa) : Dfa :=
  { d with states := d.states.map State.withoutEdges }

theorem withoutEdges_empty : empty.withoutEdges = empty := by
  unfold withoutEdges empty
  rw [Array.map_empty]

theorem state?_withoutEdges (d : Dfa) (id : Nat) :
    d.withoutEdges.state? id = (d.state? id).map State.withoutEdges :=
  Array.getElem?_map

theorem idOf?_withoutEdges (d : Dfa) (origin : List Nat) :
    d.withoutEdges.idOf? origin = d.idOf? origin :=
  Array.findIdx?_map

theorem append_withoutEdges (d : Dfa) (s : State) :
    d.withoutEdges.append s.withoutEdges = (d.append s).withoutEdges := by
  unfold append withoutEdges
  rw [Array.map_push]

end Dfa

namespace StoredState

/-- A row with one stored entry; where that is a missing edge, the row stays as it is. -/
def putEntry (s : StoredState) (row : Row) (column : Column) : Row :=
  if s.next.get column = Dfa.noEdge then row
  else row.setIfInBounds column (some (s.next.get column))

theorem get_putEntry (s : StoredState) (row : Row) (column i : Column) :
    (s.putEntry row column).get i =
      if i = column then (Dfa.edge? (s.next.get i)).or (row.get i) else row.get i := by
  unfold putEntry
  by_cases hi : i = column
  · subst hi
    rw [if_pos rfl, Dfa.edge?]
    split
    · rfl
    · exact Vector.getElem_setIfInBounds_self i.isLt
  · have hne : column.val ≠ i.val := fun h => hi (Fin.ext h.symm)
    rw [if_neg hi]
    split
    · rfl
    · exact Vector.getElem_setIfInBounds_ne i.isLt hne

/-- Written one by one, the entries stand in their columns. -/
theorem get_foldl_putEntry (s : StoredState) (columns : List Column) (row : Row) (i : Column) :
    (columns.foldl s.putEntry row).get i =
      if i ∈ columns then (Dfa.edge? (s.next.get i)).or (row.get i) else row.get i := by
  induction columns generalizing row with
  | nil => rfl
  | cons column columns ih =>
    rw [List.foldl_cons, ih, get_putEntry]
    by_cases hi : i = column
    · cases Dfa.edge? (s.next.get i) <;> simp [hi]
    · simp [hi]

/-- A row without edges into which all entries are written is the stored row. -/
theorem foldl_putEntry (s : StoredState) :
    (List.finRange 95).foldl s.putEntry Dfa.emptyRow = s.row := by
  apply Vector.ext
  intro i hi
  have hget := s.get_foldl_putEntry (List.finRange 95) Dfa.emptyRow ⟨i, hi⟩
  rw [if_pos (List.mem_finRange _)] at hget
  have hempty : Dfa.emptyRow.get ⟨i, hi⟩ = none := Vector.getElem_replicate hi
  rw [hempty, Option.or_none] at hget
  exact hget.trans (Vector.getElem_map _ hi).symm

/-- The error of an entry of the state at a position, if it leads out of the table. -/
def strayTarget? (size : Nat) (stored : StoredState × Nat) (column : Column) :
    Option TableError :=
  let target := stored.1.next.get column
  if target ≠ Dfa.noEdge ∧ size ≤ target then some (.edgeOutOfRange stored.2 target size) else none

/-- The error of the first entry that leads out of the table. -/
def strayEdge? (size : Nat) (stored : StoredState × Nat) : Option TableError :=
  (List.finRange 95).findSome? (strayTarget? size stored)

theorem strayEdge?_eq_none_iff {size : Nat} {stored : StoredState × Nat} :
    strayEdge? size stored = none ↔
      ∀ target ∈ stored.1.next.toList, target ≠ Dfa.noEdge → target < size := by
  have hentry : ∀ column, strayTarget? size stored column = none ↔
      (stored.1.next.get column ≠ Dfa.noEdge → stored.1.next.get column < size) := by
    intro column
    simp [strayTarget?]
  rw [strayEdge?, List.findSome?_eq_none_iff]
  simp only [List.mem_finRange, forall_true_left, hentry]
  constructor
  · intro h target htarget
    obtain ⟨i, hi, rfl⟩ := Vector.mem_iff_getElem.mp (Vector.mem_toList_iff.mp htarget)
    exact h ⟨i, hi⟩
  · exact fun h column => h _ (Vector.mem_toList_iff.mpr (Vector.getElem_mem column.isLt))

end StoredState

namespace StoredTable

/-! ## Writing entries -/

/-- The table with the row of the state at a position written. -/
def putRow (d : Dfa) (stored : StoredState × Nat) : Dfa :=
  d.modifyRow stored.2 fun row => (List.finRange 95).foldl stored.1.putEntry row

/-- The error of the first edge that leads out of the table. -/
def strayEdge? (t : StoredTable) : Option TableError :=
  t.states.zipIdx.findSome? (StoredState.strayEdge? t.states.length)

theorem strayEdge?_eq_none_iff {t : StoredTable} : t.strayEdge? = none ↔
    ∀ s ∈ t.states, ∀ target ∈ s.next.toList, target ≠ Dfa.noEdge → target < t.states.length := by
  rw [strayEdge?, List.findSome?_eq_none_iff]
  simp only [StoredState.strayEdge?_eq_none_iff]
  constructor
  · intro h s hs
    obtain ⟨position, hposition, rfl⟩ := List.getElem_of_mem hs
    exact h (_, position) (List.mem_zipIdx_iff_getElem?.mpr (List.getElem?_eq_getElem hposition))
  · rintro h ⟨s, position⟩ hs
    exact h s (List.fst_mem_of_mem_zipIdx hs)

theorem writeEntry_eq (size : Nat) (stored : StoredState × Nat) (d : Dfa) (column : Column) :
    writeEntry size stored d column = (StoredState.strayTarget? size stored column).elim
      (.ok (d.modifyRow stored.2 fun row => stored.1.putEntry row column)) .error := by
  unfold writeEntry StoredState.strayTarget? StoredState.putEntry
  by_cases hmissing : stored.1.next.get column = Dfa.noEdge
  · simp only [hmissing, if_true, ne_eq, not_true_eq_false, false_and, if_false, Option.elim_none,
      Dfa.modifyRow_id]
  · by_cases hstray : size ≤ stored.1.next.get column
    · simp only [hmissing, hstray, if_true, if_false, ne_eq, not_false_eq_true, and_self,
        Option.elim_some]
    · simp only [hmissing, hstray, if_false, and_false, Option.elim_none, Dfa.setEdge_symbol,
        Dfa.edge?]

/-- One entry after the other is one change of the row. -/
theorem foldl_modifyRow (s : StoredState) (id : Nat) (columns : List Column) (d : Dfa) :
    columns.foldl (fun d column => d.modifyRow id fun row => s.putEntry row column) d =
      d.modifyRow id fun row => columns.foldl s.putEntry row := by
  induction columns generalizing d with
  | nil => exact (d.modifyRow_id id).symm
  | cons column columns ih =>
    rw [List.foldl_cons, ih, Dfa.modifyRow_modifyRow]
    rfl

theorem writeRow_eq (size : Nat) (d : Dfa) (stored : StoredState × Nat) :
    writeRow size d stored =
      (StoredState.strayEdge? size stored).elim (.ok (putRow d stored)) .error := by
  unfold writeRow
  rw [foldlM_eq_elim_findSome? (writeEntry_eq size stored), foldl_modifyRow]
  rfl

/-- Written one after the other, the rows are those of the states in their positions. -/
theorem state?_foldl_putRow (ss : List StoredState) (d : Dfa) (id : Nat) :
    (ss.zipIdx.foldl putRow d).state? id = (d.state? id).map fun state =>
      { state with row :=
          (ss[id]?).elim state.row fun s => (List.finRange 95).foldl s.putEntry state.row } := by
  -- on the last row, since positions count from the front
  induction ss using List.reverseRecOn with
  | nil => exact Option.map_id'.symm
  | append_singleton ss s ih =>
    rw [List.zipIdx_append, List.foldl_append, List.zipIdx_singleton, List.foldl_cons,
      List.foldl_nil, putRow, Dfa.state?_modifyRow, ih, Nat.zero_add]
    by_cases hid : ss.length = id
    · subst hid
      rw [if_pos rfl, Option.map_map]
      simp [Function.comp_def]
    · have hget : (ss ++ [s])[id]? = ss[id]? := by
        rw [List.getElem?_append]
        split
        · rfl
        · rw [List.getElem?_eq_none (by simp; omega), List.getElem?_eq_none (by omega)]
      rw [if_neg hid, hget]

theorem start_foldl_putRow (stored : List (StoredState × Nat)) (d : Dfa) :
    (stored.foldl putRow d).start = d.start := by
  induction stored generalizing d with
  | nil => rfl
  | cons s stored ih =>
    rw [List.foldl_cons, ih]
    rfl

/-! ## Appending states with their rows -/

/-- Appends a stored state with its whole row. -/
def appendState (d : Dfa) (s : StoredState) : Except TableError Dfa :=
  match s.tag? with
  | none => .error (.unpairedTag d.size)
  | some accept =>
    match d.idOf? s.sortedOrigin with
    | some earlier => .error (.duplicateOrigin d.size earlier)
    | none => .ok (d.append ⟨s.sortedOrigin, s.row, accept⟩)

/-- A stored state is appended if its tag is whole and its origin is new. -/
theorem appendState_eq_ok_iff {d d' : Dfa} {s : StoredState} :
    appendState d s = .ok d' ↔
      ∃ state, s.Becomes state ∧ state.origin ∉ d.origins ∧ d' = d.append state := by
  unfold appendState
  constructor
  · intro h
    split at h
    · cases h
    · rename_i accept htag
      split at h
      · cases h
      · rename_i hid
        obtain rfl := Except.ok.inj h
        exact ⟨⟨s.sortedOrigin, s.row, accept⟩, ⟨rfl, rfl, htag⟩,
          Dfa.idOf?_eq_none_iff.mp hid, rfl⟩
  · rintro ⟨⟨origin, row, accept⟩, ⟨rfl, rfl, htag⟩, hnew, rfl⟩
    rw [htag]
    simp only [Dfa.idOf?_eq_none_iff.mpr hnew]

/-- Stored states are appended in order if their origins are distinct. -/
theorem foldlM_appendState_eq_ok_iff {d d' : Dfa} {ss : List StoredState}
    (hd : d.origins.Nodup) :
    ss.foldlM appendState d = .ok d' ↔ ∃ states,
      List.Forall₂ StoredState.Becomes ss states ∧ d' = d.appendAll states ∧ d'.origins.Nodup := by
  -- on the stored states, for any table that they are appended to
  induction ss generalizing d with
  | nil =>
    simp only [List.forall₂_nil_left_iff, exists_eq_left, Dfa.appendAll_nil]
    constructor
    · intro h
      obtain rfl := Except.ok.inj h
      exact ⟨rfl, hd⟩
    · rintro ⟨rfl, _⟩
      rfl
  | cons s ss ih =>
    rw [List.foldlM_cons]
    constructor
    · intro h
      cases hstep : appendState d s with
      | error e =>
        rw [hstep] at h
        cases h
      | ok next =>
        rw [hstep] at h
        obtain ⟨state, hbecomes, hnew, rfl⟩ := appendState_eq_ok_iff.mp hstep
        obtain ⟨states, hstates, hd', hnodup⟩ := (ih (Dfa.nodup_origins_append.mpr ⟨hd, hnew⟩)).mp h
        rw [← Dfa.appendAll_cons] at hd'
        exact ⟨state :: states, .cons hbecomes hstates, hd', hnodup⟩
    · rintro ⟨states, hstates, hd', hnodup⟩
      cases hstates with
      | @cons _ state _ states hbecomes hstates =>
        rw [Dfa.appendAll_cons] at hd'
        have hfront : (d.append state).origins.Nodup := by
          rw [hd', Dfa.origins_appendAll] at hnodup
          exact (List.nodup_append.mp hnodup).1
        have hstep : appendState d s = .ok (d.append state) := appendState_eq_ok_iff.mpr
          ⟨state, hbecomes, (Dfa.nodup_origins_append.mp hfront).2, rfl⟩
        rw [hstep]
        exact (ih hfront).mpr ⟨states, hstates, hd', hnodup⟩

theorem insertState_withoutEdges (d : Dfa) (s : StoredState) :
    insertState d.withoutEdges (s, d.size) = (appendState d s).map Dfa.withoutEdges := by
  unfold insertState appendState Dfa.insert
  simp only [Dfa.idOf?_withoutEdges]
  cases s.tag? with
  | none => rfl
  | some accept =>
    cases d.idOf? s.sortedOrigin with
    | some earlier => rfl
    | none => exact congrArg Except.ok (d.append_withoutEdges ⟨s.sortedOrigin, s.row, accept⟩)

/-- The states that are inserted without edges are those that are appended with their
rows, and what is refused is refused with the same error. -/
theorem foldlM_insertState_withoutEdges (ss : List StoredState) (d : Dfa) :
    (ss.zipIdx d.size).foldlM insertState d.withoutEdges =
      (ss.foldlM appendState d).map Dfa.withoutEdges := by
  induction ss generalizing d with
  | nil => rfl
  | cons s ss ih =>
    rw [List.zipIdx_cons, List.foldlM_cons, List.foldlM_cons, insertState_withoutEdges]
    cases hstep : appendState d s with
    | error e => rfl
    | ok d' =>
      obtain ⟨state, _, _, rfl⟩ := appendState_eq_ok_iff.mp hstep
      rw [← Dfa.size_append d state]
      exact ih (d.append state)

/-- Writing the stored rows into the states without edges makes them what they become. -/
theorem foldl_putRow_withoutEdges {ss : List StoredState} {d : Dfa}
    (h : List.Forall₂ StoredState.Becomes ss d.states.toList) :
    ss.zipIdx.foldl putRow d.withoutEdges = d := by
  refine Dfa.ext_state? (start_foldl_putRow _ _) fun id => ?_
  rw [state?_foldl_putRow, Dfa.state?_withoutEdges, Option.map_map]
  cases hstate : d.state? id with
  | none => rfl
  | some state =>
    have hrow := congrArg (·[id]?) (StoredState.map_eq_of_becomes (fun _ _ h => h.row) h)
    have hstate' : d.states.toList[id]? = some state := by
      rw [Array.getElem?_toList]
      exact hstate
    simp only [List.getElem?_map, hstate', Option.map_some] at hrow
    obtain ⟨s, hs, hrow⟩ := Option.map_eq_some_iff.mp hrow.symm
    simp only [Option.map_some, Function.comp_apply, hs, Option.elim_some, Dfa.State.withoutEdges,
      s.foldl_putEntry, hrow]

/-- With a start that exists, a stored table is as good as its states with their rows, and
its edges. -/
theorem toDfa_of_start_lt {t : StoredTable} (h : t.start < t.states.length) :
    t.toDfa = (t.states.foldlM appendState .empty).bind fun d =>
      t.strayEdge?.elim (.ok (d.setStart t.start)) .error := by
  have hsome : ¬t.states.length = 0 := by omega
  have hinsert := foldlM_insertState_withoutEdges t.states .empty
  rw [Dfa.withoutEdges_empty, Dfa.size_empty] at hinsert
  rw [toDfa, if_neg hsome, if_neg (Nat.not_le.mpr h)]
  simp only [hinsert, foldlM_eq_elim_findSome? (writeRow_eq t.states.length), strayEdge?]
  cases hstates : t.states.foldlM appendState .empty with
  | error e => rfl
  | ok d =>
    obtain ⟨states, hbecomes, rfl, _⟩ :=
      (foldlM_appendState_eq_ok_iff (d := .empty) List.nodup_nil).mp hstates
    cases t.states.zipIdx.findSome? (StoredState.strayEdge? t.states.length) with
    | some e => rfl
    | none =>
      exact congrArg (fun d : Dfa => Except.ok (d.setStart t.start))
        (foldl_putRow_withoutEdges hbecomes)

theorem start_lt_of_toDfa {t : StoredTable} {d : Dfa} (h : t.toDfa = .ok d) :
    t.start < t.states.length := by
  by_contra hstart
  rw [toDfa] at h
  by_cases hsome : t.states.length = 0
  · rw [if_pos hsome] at h
    cases h
  · rw [if_neg hsome, if_pos (Nat.le_of_not_lt hstart)] at h
    cases h

/-- A stored table is accepted if its start exists, no edge leads out of it, and its
states become states with distinct origins. -/
theorem toDfa_eq_ok_iff {t : StoredTable} {d : Dfa} : t.toDfa = .ok d ↔
    t.start < t.states.length ∧ t.strayEdge? = none ∧ d.start = t.start ∧
      List.Forall₂ StoredState.Becomes t.states d.states.toList ∧ d.origins.Nodup := by
  have hempty : Dfa.empty.origins.Nodup := List.nodup_nil
  constructor
  · intro h
    have hstart := start_lt_of_toDfa h
    rw [toDfa_of_start_lt hstart] at h
    cases hstates : t.states.foldlM appendState .empty with
    | error e =>
      rw [hstates] at h
      cases h
    | ok d' =>
      obtain ⟨states, hbecomes, rfl, hnodup⟩ :=
        (foldlM_appendState_eq_ok_iff hempty).mp hstates
      rw [hstates, Except.bind] at h
      cases hstray : t.strayEdge? with
      | some edge =>
        rw [hstray] at h
        cases h
      | none =>
        rw [hstray] at h
        obtain rfl := Except.ok.inj h
        exact ⟨hstart, rfl, rfl, hbecomes, hnodup⟩
  · rintro ⟨hstart, hstray, hd, hbecomes, hnodup⟩
    have hstates : t.states.foldlM appendState .empty = .ok (.appendAll .empty d.states.toList) :=
      (foldlM_appendState_eq_ok_iff hempty).mpr ⟨_, hbecomes, rfl, hnodup⟩
    rw [toDfa_of_start_lt hstart, hstates, hstray, Except.bind, ← hd]
    rfl

end StoredTable

end Munch
