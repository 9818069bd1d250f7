import Mathlib.Data.List.Induction
import Munch.Checked
import Munch.Proofs.Dfa.View

/-!
# Runs of acts on a table

A table is made from the empty one by three acts: a state is inserted, an edge is
written, the start is moved (`Act`). What one act can do is said once, by `act?_cases`;
what it keeps of the states that are there (`Keeps`) and what it does to an edge
(`step_act?`) follow from that, and from these what a whole run does.

An origin is looked for by going through the states. A run may keep an index of the
origins beside the table instead (`Indexed`), which is asked before a state is added and
written when one is. It always answers as the search does (`Indexed.Exact.foldlM_act?`).
-/

namespace Munch.Dfa

variable {d d' : Dfa}

/-! ## Acts -/

/-- One act on a table. -/
inductive Act where
  | insert (origin : List Nat) (accept : Option Tag)
  | setEdge (source : Nat) (b : UInt8) (target : Nat)
  | setStart (id : Nat)

/-- The table behind an act, if the act writes to an existing state. -/
def act? (d : Dfa) : Act → Option Dfa
  | .insert origin accept => some (d.insert origin accept).dfa
  | .setEdge source b target => d.setEdge? source b target
  | .setStart id => some (d.setStart id)

/-- The table that a run of acts makes from the empty one. -/
def run? (acts : List Act) : Option Dfa :=
  acts.foldlM act? empty

/-- Where the act has the byte lead from the state, if it is about that edge. -/
def Act.target? (id : Nat) (b : UInt8) : Act → Option Nat
  | .setEdge source c target => if source = id ∧ c = b then some target else none
  | _ => none

/-- Where the latest act about that edge has it lead. -/
def latest? (acts : List Act) (id : Nat) (b : UInt8) : Option Nat :=
  acts.reverse.findSome? (Act.target? id b)

variable {acts : List Act} {a : Act}

theorem latest?_concat (acts : List Act) (a : Act) (id : Nat) (b : UInt8) :
    latest? (acts ++ [a]) id b = (a.target? id b).or (latest? acts id b) := by
  simp only [latest?, List.reverse_append, List.reverse_singleton, List.singleton_append,
    List.findSome?_cons]
  cases a.target? id b <;> rfl

/-- All that an act can do: find a state, add one without edges, pass over a byte without
column, write an entry of a state that exists, or move the start. -/
theorem act?_cases (h : d.act? a = some d') :
    (∃ origin accept, a = .insert origin accept ∧
      (d' = d ∨ (∀ id < d.size, d.originOf id ≠ origin) ∧
        d' = d.append ⟨origin, emptyRow, accept⟩)) ∨
    (∃ source b target, a = .setEdge source b target ∧
      (b ∉ Alphabet.symbols ∧ d' = d ∨
        b ∈ Alphabet.symbols ∧ source < d.size ∧ d' = d.link source b (edge? target))) ∨
    ∃ id, a = .setStart id ∧ d' = d.setStart id := by
  cases a with
  | insert origin accept =>
    obtain rfl := Option.some.inj h
    refine .inl ⟨origin, accept, rfl, ?_⟩
    rcases d.insert_cases origin accept with ⟨id, _, _, heq⟩ | ⟨hnew, heq⟩
    · exact .inl (by rw [heq])
    · exact .inr ⟨hnew, by rw [heq]⟩
  | setEdge source b target =>
    simp only [act?, setEdge?, Option.ite_none_right_eq_some, Option.some.injEq, Bool.or_eq_true,
      Option.isNone_iff_eq_none, decide_eq_true_eq, Alphabet.index?_eq_none_iff_not_mem] at h
    obtain ⟨hwrites, rfl⟩ := h
    refine .inr (.inl ⟨source, b, target, rfl, ?_⟩)
    by_cases hb : b ∈ Alphabet.symbols
    · exact .inr ⟨hb, hwrites.resolve_left (not_not_intro hb), rfl⟩
    · exact .inl ⟨hb, link_of_no_column (Alphabet.index?_eq_none_iff_not_mem.mpr hb) d source _⟩
  | setStart id => exact .inr (.inr ⟨id, rfl, (Option.some.inj h).symm⟩)

/-! ## States stay -/

/-- The states of the first table are in the second under the same names, with the same
origins and tags, and origins stay distinct. -/
structure Keeps (d d' : Dfa) : Prop where
  distinct : d.Distinct → d'.Distinct
  states : ∀ id s, d.state? id = some s →
    ∃ s', d'.state? id = some s' ∧ s'.origin = s.origin ∧ s'.accept = s.accept

namespace Keeps

theorem refl (d : Dfa) : Keeps d d :=
  ⟨fun h => h, fun _ s hs => ⟨s, hs, rfl, rfl⟩⟩

theorem trans {d₁ d₂ d₃ : Dfa} (h : Keeps d₁ d₂) (h' : Keeps d₂ d₃) : Keeps d₁ d₃ := by
  refine ⟨fun hd => h'.distinct (h.distinct hd), fun id s hs => ?_⟩
  obtain ⟨s₂, hs₂, horigin₂, haccept₂⟩ := h.states id s hs
  obtain ⟨s₃, hs₃, horigin₃, haccept₃⟩ := h'.states id s₂ hs₂
  exact ⟨s₃, hs₃, horigin₃.trans horigin₂, haccept₃.trans haccept₂⟩

theorem append {s : State} (hnew : ∀ id < d.size, d.originOf id ≠ s.origin) :
    Keeps d (d.append s) := by
  refine ⟨fun hd => hd.append hnew, fun id s' hs' => ⟨s', ?_, rfl, rfl⟩⟩
  rw [state?_append_of_lt s (lt_size_of_state? hs'), hs']

theorem link (d : Dfa) (source : Nat) (b : UInt8) (target : Option Nat) :
    Keeps d (d.link source b target) := by
  refine ⟨fun hd => hd.link source b target, fun id s hs => ?_⟩
  cases hb : Alphabet.index? b.toNat with
  | none => exact ⟨s, by rw [link_of_no_column hb, hs], rfl, rfl⟩
  | some i =>
    rw [state?_link hb, hs]
    by_cases hid : source = id
    · exact ⟨{ s with row := s.row.set i target }, by simp [hid], rfl, rfl⟩
    · exact ⟨s, by simp [hid], rfl, rfl⟩

/-- What is there before an act is there after it. -/
theorem act? (h : d.act? a = some d') : Keeps d d' := by
  obtain ⟨_, _, _, rfl | ⟨hnew, rfl⟩⟩ | ⟨_, _, _, _, ⟨_, rfl⟩ | ⟨_, _, rfl⟩⟩ | ⟨_, _, rfl⟩ :=
    act?_cases h
  · exact refl d'
  · exact append hnew
  · exact refl d'
  · exact link d _ _ _
  · exact ⟨fun hd => hd, fun _ s hs => ⟨s, hs, rfl, rfl⟩⟩

theorem foldlM_act? (h : acts.foldlM Dfa.act? d = some d') : Keeps d d' := by
  induction acts generalizing d with
  | nil =>
    obtain rfl := Option.some.inj h
    exact refl d
  | cons a acts ih =>
    rw [List.foldlM_cons] at h
    obtain ⟨mid, hact, hrest⟩ := Option.bind_eq_some_iff.mp h
    exact (act? hact).trans (ih hrest)

end Keeps

/-- In all that a run makes different states have different origins. -/
theorem distinct_of_run? (h : run? acts = some d) : d.Distinct :=
  (Keeps.foldlM_act? h).distinct distinct_empty

theorem originOf_eq_iff {origin : List Nat} {id : Nat} :
    id < d.size ∧ d.originOf id = origin ↔ ∃ s, d.state? id = some s ∧ s.origin = origin := by
  refine ⟨fun ⟨hid, horigin⟩ => ?_, fun ⟨s, hs, horigin⟩ => ?_⟩
  · obtain ⟨s, hs⟩ := exists_state? hid
    refine ⟨s, hs, ?_⟩
    rwa [originOf, hs, Option.elim_some] at horigin
  · refine ⟨lt_size_of_state? hs, ?_⟩
    rwa [originOf, hs, Option.elim_some]

/-! ## The latest edge counts -/

/-- An act about an edge of the alphabet decides that edge and leaves all others. -/
theorem step_act? (h : d.act? a = some d') {b : UInt8} (hb : b ∈ Alphabet.symbols) (id : Nat) :
    d'.step id b = (a.target? id b).elim (d.step id b) edge? := by
  obtain ⟨_, _, rfl, rfl | ⟨_, rfl⟩⟩ | ⟨source, c, target, rfl, ⟨hc, rfl⟩ | ⟨hc, hs, rfl⟩⟩ |
    ⟨_, rfl, rfl⟩ := act?_cases h
  · rfl
  · exact step_append_emptyRow d _ _ id b
  · have hne : c ≠ b := fun heq => hc (heq ▸ hb)
    simp [Act.target?, hne]
  · rw [step_link hs hc]
    by_cases hedge : source = id ∧ c = b
    · simp [Act.target?, hedge]
    · simp [Act.target?, hedge]
  · rfl

theorem step_run? (h : run? acts = some d) {b : UInt8} (hb : b ∈ Alphabet.symbols) (id : Nat) :
    d.step id b = (latest? acts id b).bind edge? := by
  -- on the acts from the last one backwards, since the last one about the edge decides
  induction acts using List.reverseRecOn generalizing d with
  | nil =>
    obtain rfl := Option.some.inj h
    rfl
  | append_singleton acts a ih =>
    rw [run?, List.foldlM_append] at h
    obtain ⟨mid, hmid, hlast⟩ := Option.bind_eq_some_iff.mp h
    simp only [List.foldlM_cons, List.foldlM_nil, bind_pure] at hlast
    rw [step_act? hlast hb, ih hmid, latest?_concat]
    cases a.target? id b <;> rfl

theorem step_run?_eq_some_iff (h : run? acts = some d) {id target : Nat} {b : UInt8} :
    d.step id b = some target ↔ latest? acts id b = some target ∧ target ≠ noEdge ∧
      (32 ≤ b.toNat ∧ b.toNat ≤ 126) ∧ id < d.size := by
  have hedge : ∀ entry, edge? entry = some target ↔ entry = target ∧ target ≠ noEdge := by
    intro entry
    rw [edge?, Option.ite_none_left_eq_some, Option.some.injEq]
    refine ⟨fun ⟨hne, heq⟩ => ⟨heq, heq ▸ hne⟩, fun ⟨heq, hne⟩ => ⟨heq ▸ hne, heq⟩⟩
  rw [← Alphabet.mem_symbols]
  refine ⟨fun hstep => ?_, fun ⟨hlatest, hne, hb, _⟩ => ?_⟩
  · obtain ⟨hid, hb⟩ := of_step_eq_some hstep
    rw [step_run? h hb, Option.bind_eq_some_iff] at hstep
    obtain ⟨entry, hlatest, hentry⟩ := hstep
    obtain ⟨rfl, hne⟩ := (hedge entry).mp hentry
    exact ⟨hlatest, hne, hb, hid⟩
  · rw [step_run? h hb, hlatest, Option.bind_some, hedge]
    exact ⟨rfl, hne⟩

/-! ## An index beside the table -/

/-- A table and beside it an index, which has the name of a state under its origin. -/
structure Indexed where
  table : Dfa := empty
  index : List (List Nat × Nat) := []

namespace Indexed

variable {x y : Indexed}

/-- `Dfa.insert`, where the index is asked for the origin and a new state is entered. -/
def insert (x : Indexed) (origin : List Nat) (accept : Option Tag) :
    Inserted × List (List Nat × Nat) :=
  match x.index.lookup origin with
  | some id => (⟨id, false, x.table⟩, x.index)
  | none => (⟨x.table.size, true, x.table.append ⟨origin, emptyRow, accept⟩⟩,
      (origin, x.table.size) :: x.index)

/-- The table and the index behind an act; edges and the start are no matter of the index. -/
def act? (x : Indexed) : Act → Option Indexed
  | .insert origin accept =>
    let (found, index) := x.insert origin accept
    some ⟨found.dfa, index⟩
  | a => (x.table.act? a).map fun table => { x with table }

/-- The index has what the search finds, under each origin. -/
def Exact (x : Indexed) : Prop :=
  ∀ origin, x.index.lookup origin = x.table.idOf? origin

theorem exact_empty : Exact {} := by
  intro origin
  simp [empty, idOf?]

theorem Exact.insert_fst (h : x.Exact) (origin : List Nat) (accept : Option Tag) :
    (x.insert origin accept).1 = x.table.insert origin accept := by
  unfold Indexed.insert Dfa.insert
  rw [h origin]
  cases x.table.idOf? origin <;> rfl

/-- The new state is entered under its origin, where the search comes to it last. -/
theorem Exact.enter (h : x.Exact) {s : State} (hnew : x.index.lookup s.origin = none) :
    Exact ⟨x.table.append s, (s.origin, x.table.size) :: x.index⟩ := by
  intro origin
  show List.lookup origin ((s.origin, x.table.size) :: x.index) = (x.table.append s).idOf? origin
  have hsearch : (x.table.append s).idOf? origin =
      (x.table.idOf? origin).or (if s.origin == origin then some x.table.size else none) :=
    Array.findIdx?_push
  rw [hsearch, List.lookup_cons, ← h origin]
  by_cases heq : origin = s.origin
  · subst heq
    simp [hnew]
  · have hne : s.origin ≠ origin := fun hs => heq hs.symm
    simp [beq_false_of_ne heq, hne]

/-- What changes neither names nor origins is no matter of the index. -/
theorem Exact.of_originOf (h : x.Exact) (hd : x.table.Distinct) {table : Dfa}
    (hsize : table.size = x.table.size) (horigin : ∀ id, table.originOf id = x.table.originOf id) :
    Exact { x with table } := by
  have htable : table.Distinct := by
    simp only [Distinct, hsize, horigin]
    exact hd
  intro origin
  rw [h origin]
  apply Option.ext
  intro id
  rw [hd.idOf?_eq_some_iff, htable.idOf?_eq_some_iff, hsize, horigin]

/-- An act on the table with its index does what it does to the table alone. -/
theorem Exact.act? (h : x.Exact) (hd : x.table.Distinct) (hact : x.table.act? a = some d) :
    ∃ y, x.act? a = some y ∧ y.table = d ∧ y.Exact := by
  cases a with
  | insert origin accept =>
    obtain rfl := Option.some.inj hact
    refine ⟨⟨(x.insert origin accept).1.dfa, (x.insert origin accept).2⟩, rfl, ?_, ?_⟩
    · rw [h.insert_fst]
    · cases hlookup : x.index.lookup origin with
      | some id =>
        simp only [Indexed.insert, hlookup]
        exact h
      | none =>
        simp only [Indexed.insert, hlookup]
        exact h.enter (s := ⟨origin, emptyRow, accept⟩) hlookup
  | setEdge source b target =>
    refine ⟨{ x with table := d }, by simp only [Indexed.act?, hact, Option.map_some], rfl, ?_⟩
    simp only [Dfa.act?, setEdge?, Option.ite_none_right_eq_some] at hact
    obtain rfl := Option.some.inj hact.2
    exact h.of_originOf hd (size_link _ _ _ _) (originOf_link _ _ _ _)
  | setStart id =>
    refine ⟨{ x with table := d }, by simp only [Indexed.act?, hact, Option.map_some], rfl, ?_⟩
    obtain rfl := Option.some.inj hact
    exact h.of_originOf hd rfl fun _ => rfl

theorem Exact.foldlM_act? (h : x.Exact) (hd : x.table.Distinct)
    (hrun : acts.foldlM Dfa.act? x.table = some d) :
    ∃ y, acts.foldlM Indexed.act? x = some y ∧ y.table = d ∧ y.Exact := by
  induction acts generalizing x with
  | nil =>
    obtain rfl := Option.some.inj hrun
    exact ⟨x, rfl, rfl, h⟩
  | cons a acts ih =>
    rw [List.foldlM_cons] at hrun
    obtain ⟨mid, hact, hrest⟩ := Option.bind_eq_some_iff.mp hrun
    obtain ⟨y, hy, rfl, hexact⟩ := h.act? hd hact
    obtain ⟨z, hz, hlast⟩ := ih hexact ((Keeps.act? hact).distinct hd) hrest
    refine ⟨z, ?_, hlast⟩
    rw [List.foldlM_cons, hy]
    exact hz

end Indexed

/-! ## What a run leaves -/

/-- What a table shows of the run that made it. -/
structure Reflects (acts : List Act) (d : Dfa) : Prop where
  /-- No two states have one origin. -/
  distinct : ∀ i j s s', d.state? i = some s → d.state? j = some s' → s.origin = s'.origin → i = j
  /-- An origin is found iff a state has it, and then under the name of that state. -/
  found : ∀ origin id, d.idOf? origin = some id ↔ ∃ s, d.state? id = some s ∧ s.origin = origin
  /-- To insert an origin that is there gives the old name and changes nothing. -/
  repeated : ∀ id s accept, d.state? id = some s → d.insert s.origin accept = ⟨id, false, d⟩
  /-- A new origin gets the next position as its name, with the given tag and no edges. -/
  fresh : ∀ origin accept, (∀ id s, d.state? id = some s → s.origin ≠ origin) →
    d.insert origin accept = ⟨d.size, true, d.append ⟨origin, emptyRow, accept⟩⟩
  /-- Name, origin and tag of a state stay, whatever else is done. -/
  kept : ∀ (later : List Act) (d' : Dfa), later.foldlM act? d = some d' →
    ∀ id s, d.state? id = some s →
      ∃ s', d'.state? id = some s' ∧ s'.origin = s.origin ∧ s'.accept = s.accept
  /-- An edge leads where the latest act about it says. -/
  edge : ∀ id b target, d.step id b = some target ↔ latest? acts id b = some target ∧
    target ≠ noEdge ∧ (32 ≤ b.toNat ∧ b.toNat ≤ 126) ∧ id < d.size

/-- A table shows of the run that made it which origins were inserted and where the edges
were set last. The same run with an index beside the table makes the same table, and the
index answers as the search does, also where the next state is to be inserted. -/
theorem reflects_of_run? (h : run? acts = some d) :
    Reflects acts d ∧
    ∃ x, acts.foldlM Indexed.act? {} = some x ∧ x.table = d ∧
      (∀ origin, x.index.lookup origin = d.idOf? origin) ∧
      ∀ origin accept, (x.insert origin accept).1 = d.insert origin accept := by
  have hd := distinct_of_run? h
  have hfound : ∀ origin id, d.idOf? origin = some id ↔
      ∃ s, d.state? id = some s ∧ s.origin = origin := by
    intro origin id
    rw [hd.idOf?_eq_some_iff, originOf_eq_iff]
  refine ⟨⟨?_, hfound, ?_, ?_, ?_, ?_⟩, ?_⟩
  · intro i j s s' hi hj hsame
    have hid := (hfound _ i).mpr ⟨s, hi, hsame⟩
    rw [(hfound _ j).mpr ⟨s', hj, rfl⟩] at hid
    exact (Option.some.inj hid).symm
  · intro id s accept hs
    simp only [insert, (hfound _ id).mpr ⟨s, hs, rfl⟩]
  · intro origin accept hnew
    cases hfind : d.idOf? origin with
    | none =>
      simp only [insert, hfind]
      rfl
    | some id =>
      obtain ⟨s, hs, horigin⟩ := (hfound origin id).mp hfind
      exact absurd horigin (hnew id s hs)
  · intro later d' hlater
    exact (Keeps.foldlM_act? hlater).states
  · intro id b target
    exact step_run?_eq_some_iff h
  · obtain ⟨x, hx, rfl, hexact⟩ := Indexed.exact_empty.foldlM_act? distinct_empty h
    exact ⟨x, hx, rfl, hexact, fun origin accept => hexact.insert_fst origin accept⟩

/-- Two states are inserted and the first is offered again with a tag. Its edge over `a` is
written twice and the one over `b` is removed; the newline has no column, so it needs no
state; the edge over `c` and the start lead to states that are not there. -/
def draft : List Act :=
  [.insert [3, 1] none, .insert [2] (some ⟨"two", 1⟩), .setEdge 0 97 1, .insert [3, 1]
    (some ⟨"again", 2⟩), .setEdge 0 97 0, .setEdge 1 98 0, .setEdge 1 98 noEdge, .setEdge 9 10 0,
    .setEdge 1 99 7, .setStart 5]

/-- The latest edges count, and the origin is found where it was first inserted. -/
theorem reflects_of_run?_draft : ∃ d, run? draft = some d ∧
    d.step 0 97 = some 0 ∧ d.step 1 99 = some 7 ∧ d.step 1 98 = none ∧ d.step 9 10 = none ∧
    d.insert [3, 1] (some ⟨"late", 3⟩) = ⟨0, false, d⟩ := by
  have hfirst : ((run? draft).bind fun d => (d.state? 0).map State.origin) = some [3, 1] ∧
      ((run? draft).map Dfa.size) = some 2 := by decide +kernel
  obtain ⟨d, hd, hmap⟩ := Option.bind_eq_some_iff.mp hfirst.1
  obtain ⟨s, hs, horigin⟩ := Option.map_eq_some_iff.mp hmap
  have hsize : d.size = 2 := by simpa [hd] using hfirst.2
  obtain ⟨⟨_, _, hrepeated, _, _, hedge⟩, _⟩ := reflects_of_run? hd
  refine ⟨d, hd, ?_, ?_, ?_, ?_, ?_⟩
  · exact (hedge 0 97 0).mpr ⟨by decide, by decide, by decide, by omega⟩
  · exact (hedge 1 99 7).mpr ⟨by decide, by decide, by decide, by omega⟩
  · have hremoved : latest? draft 1 98 = some noEdge := by decide
    rw [Option.eq_none_iff_forall_ne_some]
    intro target hstep
    obtain ⟨hlatest, hne, _⟩ := (hedge 1 98 target).mp hstep
    exact hne (Option.some.inj (hlatest.symm.trans hremoved))
  · rw [Option.eq_none_iff_forall_ne_some]
    intro target
    simp [hedge]
  · rw [← horigin]
    exact hrepeated 0 s _ hs

end Munch.Dfa
