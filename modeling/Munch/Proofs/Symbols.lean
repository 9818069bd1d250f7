import Mathlib.Data.List.Forall2
import Mathlib.Data.List.Nodup
import Mathlib.Data.List.Sort
import Munch.Symbols

/-!
# The symbols of a table in the order of their locations

A table forgets the symbols of a scope that is left. `Recorded` keeps a ledger
beside it, with every symbol that was ever declared and a mark on those whose scope
is still open; the table itself takes no notice (`Recorded.table_foldl_perform`).
Read in the order of declaration, the ledger shows the locations `0, 1, 2, …`, and
its marked symbols are those that the table lists (`Recorded.Sound`). This holds at
the beginning and is kept by every act (`Recorded.Sound.perform`), so it holds after
every run.

A table lists its scopes as they are kept. Since locations only rise, this is also the
list that comes of taking the symbols of each scope in any order and sorting them by
location (`Recorded.Sound.flatten_byLocation`).
-/

namespace Munch

variable {name type : String}

theorem Scope.lookup_eq_none_iff {scope : Scope} :
    scope.lookup name = none ↔ name ∉ scope.map Symbol.name := by
  simp [Scope.lookup]

/-- The symbols of a scope, sorted by location. -/
def Scope.byLocation (scope : Scope) : Scope :=
  scope.mergeSort fun a b => a.location ≤ b.location

/-- In a scope with rising locations it does not matter in which order the symbols are
taken before they are sorted. -/
theorem Scope.byLocation_eq_of_perm {scope listing : Scope}
    (hrising : scope.Pairwise fun a b => a.location < b.location) (h : listing.Perm scope) :
    listing.byLocation = scope := by
  have hperm : listing.byLocation.Perm scope := (List.mergeSort_perm _ _).trans h
  have hsorted : listing.byLocation.Pairwise fun a b => a.location ≤ b.location :=
    List.pairwise_mergeSort' (Order.Preimage Symbol.location (· ≤ ·)) listing
  -- two symbols of one location are the same symbol, so the order is antisymmetric here
  have hlocations : (scope.map Symbol.location).Nodup :=
    List.pairwise_map.mpr (hrising.imp Nat.ne_of_lt)
  apply hperm.eq_of_pairwise ?_ hsorted (hrising.imp Nat.le_of_lt)
  intro a b ha hb hab hba
  exact List.inj_on_of_nodup_map hlocations (hperm.mem_iff.mp ha) hb (Nat.le_antisymm hab hba)

namespace SymbolTable

variable {t t' : SymbolTable}

/-! ## Acts -/

/-- What is done to a table. -/
inductive Act where
  | openScope
  | closeScope
  | add (name type : String)
  | addUnseen (tokens : List Token)

/-- The table behind an act. -/
def perform (t : SymbolTable) : Act → SymbolTable
  | .openScope => t.openScope
  | .closeScope => t.closeScope.2
  | .add name type => (t.add name type).2
  | .addUnseen tokens => (t.addUnseen tokens).2

/-- The names that are looked at when tokens are added. -/
def identifiers (tokens : List Token) : List String :=
  (tokens.filter (·.kind = Kind.identifier)).map Token.lexeme

/-- Leaving a scope uncovers the one around it. -/
theorem closeScope_eq_ok_iff : t.closeScope = (.ok (), t') ↔
    ∃ outer enclosing, t.enclosing = outer :: enclosing ∧
      t' = { t with current := outer, enclosing := enclosing } := by
  unfold closeScope
  split
  · rename_i hnil
    simp [hnil]
  · rename_i outer enclosing hcons
    constructor
    · intro h
      exact ⟨outer, enclosing, hcons, (congrArg Prod.snd h).symm⟩
    · intro ⟨outer', enclosing', heq, ht⟩
      rw [hcons] at heq
      obtain ⟨rfl, rfl⟩ := List.cons.inj heq
      rw [ht]

/-- The global scope is not left, and the table is as it was. -/
theorem closeScope_eq_error_iff {e : ScopeError} : t.closeScope = (.error e, t') ↔
    t.depth = 1 ∧ e = .globalScope ∧ t' = t := by
  unfold closeScope depth
  cases t.enclosing with
  | nil => simp [eq_comm]
  | cons outer enclosing => simp

/-- A name is declared if the innermost scope has none like it. -/
theorem add_eq_ok_iff {s : Symbol} : t.add name type = (.ok s, t') ↔
    t.current.lookup name = none ∧ s = t.fresh name type ∧
      t' = { t with
        current := t.current ++ [t.fresh name type]
        nextLocation := t.nextLocation + 1 } := by
  unfold add
  cases hlookup : t.current.lookup name with
  | some s => simp
  | none => simp [eq_comm]

/-- A second symbol of one name in one scope is refused, and the table is as it was. -/
theorem add_eq_error_iff {e : ScopeError} : t.add name type = (.error e, t') ↔
    name ∈ t.current.map Symbol.name ∧ e = .alreadyDeclared name ∧ t' = t := by
  have hdeclared : name ∈ t.current.map Symbol.name ↔ t.current.lookup name ≠ none := by
    rw [ne_eq, Scope.lookup_eq_none_iff, Classical.not_not]
  rw [hdeclared]
  unfold add
  cases hlookup : t.current.lookup name with
  | some s => simp [eq_comm]
  | none => simp

/-! ## The ledger -/

/-- A symbol that was declared. -/
structure Entry where
  symbol : Symbol
  /-- Depth of the scope it was declared in. -/
  depth : Nat
  /-- Whether that scope is still open. -/
  live : Bool

/-- Marks a symbol of the innermost scope as gone when the scope is left. -/
def Entry.leave (depth : Nat) (e : Entry) : Entry :=
  if e.depth = depth then { e with live := false } else e

/-- A table and the ledger of all that was declared in it, oldest first. -/
structure Recorded where
  table : SymbolTable := .empty
  ledger : List Entry := []

namespace Recorded

variable {r : Recorded}

/-- Declares a name and writes it down. -/
def add (r : Recorded) (name type : String) : Recorded :=
  match r.table.add name type with
  | (.ok symbol, t) => ⟨t, r.ledger ++ [⟨symbol, r.table.depth, true⟩]⟩
  | (.error _, t) => { r with table := t }

/-- Declares a name that is not visible yet. -/
def addIfUnseen (r : Recorded) (name : String) : Recorded :=
  match r.table.lookup name with
  | some _ => r
  | none => r.add name unknownType

/-- Leaves the innermost scope and strikes out its symbols. -/
def closeScope (r : Recorded) : Recorded :=
  match r.table.closeScope with
  | (.ok (), t) => ⟨t, r.ledger.map (Entry.leave r.table.depth)⟩
  | (.error _, t) => { r with table := t }

/-- The table and the ledger behind an act. -/
def perform (r : Recorded) : Act → Recorded
  | .openScope => { r with table := r.table.openScope }
  | .closeScope => r.closeScope
  | .add name type => r.add name type
  | .addUnseen tokens => (identifiers tokens).foldl addIfUnseen r

/-- Leaving a scope changes nothing, or uncovers the scope around it and strikes out. -/
theorem closeScope_cases (r : Recorded) : r.closeScope = r ∨
    ∃ outer enclosing, r.table.enclosing = outer :: enclosing ∧
      r.closeScope = ⟨{ r.table with current := outer, enclosing := enclosing },
        r.ledger.map (Entry.leave r.table.depth)⟩ := by
  unfold closeScope
  split
  · rename_i t hclose
    obtain ⟨outer, enclosing, henclosing, rfl⟩ := closeScope_eq_ok_iff.mp hclose
    exact .inr ⟨outer, enclosing, henclosing, rfl⟩
  · rename_i hrefused
    rw [(closeScope_eq_error_iff.mp hrefused).2.2]
    exact .inl rfl

/-- Declaring a name changes nothing, or appends its symbol to the innermost scope and to
the ledger. -/
theorem add_cases (r : Recorded) (name type : String) : r.add name type = r ∨
    r.table.current.lookup name = none ∧ r.add name type =
      ⟨{ r.table with
          current := r.table.current ++ [r.table.fresh name type]
          nextLocation := r.table.nextLocation + 1 },
        r.ledger ++ [⟨r.table.fresh name type, r.table.depth, true⟩]⟩ := by
  unfold add
  split
  · rename_i symbol t hadd
    obtain ⟨hnone, rfl, rfl⟩ := add_eq_ok_iff.mp hadd
    exact .inr ⟨hnone, rfl⟩
  · rename_i hrefused
    rw [(add_eq_error_iff.mp hrefused).2.2]
    exact .inl rfl

/-- What opening, leaving and declaring keep is kept by every act, since tokens only
declare names. -/
theorem perform_induct {P : Recorded → Prop}
    (hopen : ∀ r : Recorded, P r → P { r with table := r.table.openScope })
    (hclose : ∀ r : Recorded, P r → P r.closeScope)
    (hadd : ∀ (r : Recorded) (name type : String), P r → P (r.add name type))
    (h : P r) (act : Act) : P (r.perform act) := by
  have hunseen : ∀ (r : Recorded) (name : String), P r → P (r.addIfUnseen name) := by
    intro r name h
    unfold addIfUnseen
    split
    · exact h
    · exact hadd r name unknownType h
  cases act with
  | openScope => exact hopen r h
  | closeScope => exact hclose r h
  | add name type => exact hadd r name type h
  | addUnseen tokens =>
    show P ((identifiers tokens).foldl addIfUnseen r)
    generalize identifiers tokens = names
    induction names generalizing r with
    | nil => exact h
    | cons name names ih => exact ih (hunseen r name h)

theorem foldl_perform_induct {P : Recorded → Prop}
    (hperform : ∀ (r : Recorded) (act : Act), P r → P (r.perform act)) (h : P r)
    (acts : List Act) : P (acts.foldl perform r) := by
  induction acts generalizing r with
  | nil => exact h
  | cons act acts ih => exact ih (hperform r act h)

/-! ## The ledger is only kept beside the table -/

theorem table_add (r : Recorded) (name type : String) :
    (r.add name type).table = (r.table.add name type).2 := by
  unfold add
  split <;> rename_i h <;> rw [h]

theorem table_addIfUnseen (r : Recorded) (count : Nat) (name : String) :
    (r.addIfUnseen name).table = (SymbolTable.addIfUnseen (count, r.table) name).2 := by
  simp only [addIfUnseen, SymbolTable.addIfUnseen]
  cases r.table.lookup name with
  | some s => rfl
  | none =>
    rw [table_add]
    rcases r.table.add name unknownType with ⟨_ | _, t⟩ <;> rfl

theorem table_foldl_addIfUnseen (r : Recorded) (count : Nat) (names : List String) :
    (names.foldl addIfUnseen r).table =
      (names.foldl SymbolTable.addIfUnseen (count, r.table)).2 := by
  induction names generalizing r count with
  | nil => rfl
  | cons name names ih =>
    rw [List.foldl_cons, List.foldl_cons, ih _ (SymbolTable.addIfUnseen (count, r.table) name).1,
      table_addIfUnseen r count]

theorem table_perform (r : Recorded) (act : Act) :
    (r.perform act).table = r.table.perform act := by
  cases act with
  | openScope => rfl
  | closeScope =>
    show r.closeScope.table = r.table.closeScope.2
    unfold closeScope
    split <;> rename_i h <;> rw [h]
  | add name type => exact table_add r name type
  | addUnseen tokens => exact table_foldl_addIfUnseen r 0 (identifiers tokens)

theorem table_foldl_perform (r : Recorded) (acts : List Act) :
    (acts.foldl perform r).table = acts.foldl SymbolTable.perform r.table := by
  induction acts generalizing r with
  | nil => rfl
  | cons act acts ih => rw [List.foldl_cons, ih, table_perform, List.foldl_cons]

end Recorded

/-! ## Scopes as parts of the ledger -/

/-- The scopes, innermost first, hold the entries: each scope holds those of its
depth, and the entries of inner scopes are later. -/
inductive Holds : List Scope → List Entry → Prop
  | nil : Holds [] []
  | cons {outer : List Scope} {before : List Entry} (here : List Entry) : Holds outer before →
    (∀ e ∈ here, e.depth = outer.length + 1) →
    Holds (here.map Entry.symbol :: outer) (before ++ here)

namespace Holds

variable {scope : Scope} {outer scopes : List Scope} {entries : List Entry}

theorem flatten_eq (h : Holds scopes entries) :
    scopes.reverse.flatten = entries.map Entry.symbol := by
  induction h with
  | nil => rfl
  | cons _ _ _ ih => simp [ih]

theorem depth_le (h : Holds scopes entries) : ∀ e ∈ entries, e.depth ≤ scopes.length := by
  induction h with
  | nil => simp
  | cons _ _ hhere ih =>
    intro e he
    rw [List.length_cons]
    rcases List.mem_append.mp he with he | he
    · exact Nat.le_succ_of_le (ih e he)
    · exact Nat.le_of_eq (hhere e he)

theorem openScope (h : Holds scopes entries) : Holds ([] :: scopes) entries := by
  have hcons := Holds.cons [] h (by simp)
  rwa [List.append_nil] at hcons

/-- Leaving the innermost scope leaves the entries of the others. -/
theorem closeScope (h : Holds (scope :: outer) entries) :
    Holds outer (entries.filter (·.depth ≠ outer.length + 1)) := by
  cases h with
  | @cons _ before here hbefore hhere =>
    have hkept : before.filter (·.depth ≠ outer.length + 1) = before := by
      rw [List.filter_eq_self]
      intro e he
      have hle := hbefore.depth_le e he
      exact decide_eq_true (by omega)
    have hgone : here.filter (·.depth ≠ outer.length + 1) = [] := by
      rw [List.filter_eq_nil_iff]
      intro e he
      simp [hhere e he]
    rw [List.filter_append, hkept, hgone, List.append_nil]
    exact hbefore

theorem add (h : Holds (scope :: outer) entries) {e : Entry} (he : e.depth = outer.length + 1) :
    Holds ((scope ++ [e.symbol]) :: outer) (entries ++ [e]) := by
  cases h with
  | @cons _ before here hbefore hhere =>
    have hnow : ∀ e' ∈ here ++ [e], e'.depth = outer.length + 1 := by
      intro e' he'
      rcases List.mem_append.mp he' with he' | he'
      · exact hhere e' he'
      · rw [List.mem_singleton.mp he', he]
    have hcons := Holds.cons (here ++ [e]) hbefore hnow
    rwa [List.map_append, ← List.append_assoc] at hcons

end Holds

/-! ## What every act keeps -/

/-- The ledger counts the locations up from zero, its live entries are the symbols
of the table, scope by scope, and no scope has two symbols of one name. -/
structure Recorded.Sound (r : Recorded) : Prop where
  locations : r.ledger.map (·.symbol.location) = List.range r.ledger.length
  next : r.table.nextLocation = r.ledger.length
  holds : Holds r.table.scopes (r.ledger.filter Entry.live)
  names : ∀ scope ∈ r.table.scopes, (scope.map Symbol.name).Nodup

namespace Recorded

variable {r : Recorded}

theorem sound_empty : Sound {} where
  locations := rfl
  next := rfl
  holds := Holds.nil.openScope
  names := by simp [SymbolTable.scopes, SymbolTable.empty]

theorem Sound.openScope (h : r.Sound) : Sound { r with table := r.table.openScope } where
  locations := h.locations
  next := h.next
  holds := h.holds.openScope
  names := by
    intro scope hscope
    rcases List.mem_cons.mp hscope with rfl | hscope
    · exact List.nodup_nil
    · exact h.names scope hscope

/-- Live entries after a scope is left are the live ones of other depths. -/
theorem filter_live_leave (depth : Nat) (ledger : List Entry) :
    (ledger.map (Entry.leave depth)).filter Entry.live =
      (ledger.filter Entry.live).filter (·.depth ≠ depth) := by
  induction ledger with
  | nil => rfl
  | cons e ledger ih =>
    rw [List.map_cons, List.filter_cons, List.filter_cons, ih]
    by_cases hdepth : e.depth = depth
    · cases e.live <;> simp [Entry.leave, hdepth]
    · cases hlive : e.live <;> simp [Entry.leave, hdepth, hlive]

theorem location_leave (depth : Nat) (e : Entry) :
    (e.leave depth).symbol.location = e.symbol.location := by
  unfold Entry.leave
  split <;> rfl

theorem Sound.closeScope (h : r.Sound) : r.closeScope.Sound := by
  obtain heq | ⟨outer, enclosing, henclosing, heq⟩ := r.closeScope_cases
  · rw [heq]
    exact h
  · have hscopes : r.table.scopes = r.table.current :: outer :: enclosing := by
      rw [SymbolTable.scopes, henclosing]
    have hdepth : r.table.depth = (outer :: enclosing).length + 1 := by
      rw [SymbolTable.depth, henclosing]
    have hholds := h.holds
    rw [hscopes] at hholds
    rw [heq]
    refine ⟨?_, ?_, ?_, ?_⟩
    · rw [List.map_map, List.length_map, ← h.locations]
      exact List.map_congr_left fun e _ => location_leave _ e
    · rw [List.length_map]
      exact h.next
    · rw [filter_live_leave, hdepth]
      exact hholds.closeScope
    · intro scope hscope
      apply h.names
      rw [hscopes]
      exact List.mem_cons_of_mem _ hscope

theorem Sound.add (h : r.Sound) (name type : String) : (r.add name type).Sound := by
  obtain heq | ⟨hnone, heq⟩ := r.add_cases name type
  · rw [heq]
    exact h
  · rw [heq]
    refine ⟨?_, ?_, ?_, ?_⟩
    · -- the new symbol takes the next location, which is the length of the ledger
      rw [List.map_append, h.locations, List.length_append, List.length_singleton,
        List.range_succ, ← h.next]
      rfl
    · rw [List.length_append, ← h.next]
      rfl
    · rw [List.filter_append]
      exact h.holds.add (e := ⟨r.table.fresh name type, r.table.depth, true⟩) rfl
    · intro scope hscope
      rcases List.mem_cons.mp hscope with rfl | hscope
      · rw [List.map_append, List.nodup_append]
        refine ⟨h.names _ List.mem_cons_self, by simp, ?_⟩
        rw [Scope.lookup_eq_none_iff] at hnone
        intro a ha b hb heq
        rw [List.map_singleton, List.mem_singleton] at hb
        rw [heq, hb] at ha
        exact hnone ha
      · exact h.names scope (List.mem_cons_of_mem _ hscope)

/-- One act keeps the ledger sound. -/
theorem Sound.perform (h : r.Sound) (act : Act) : (r.perform act).Sound :=
  perform_induct (P := Sound) (fun _ => Sound.openScope) (fun _ => Sound.closeScope)
    (fun _ name type h => h.add name type) h act

/-- A whole run keeps the ledger sound. -/
theorem Sound.foldl_perform (h : r.Sound) (acts : List Act) :
    (acts.foldl Recorded.perform r).Sound :=
  foldl_perform_induct (P := Sound) (fun _ act h => h.perform act) h acts

/-! ## What a sound ledger says about the table -/

theorem Sound.symbols_eq (h : r.Sound) :
    r.table.symbols = (r.ledger.filter Entry.live).map Entry.symbol :=
  h.holds.flatten_eq

theorem Sound.pairwise_symbols (h : r.Sound) :
    r.table.symbols.Pairwise (fun a b => a.location < b.location) := by
  have hrange : (r.ledger.map (·.symbol.location)).Pairwise (· < ·) := by
    rw [h.locations]
    exact List.pairwise_lt_range
  rw [h.symbols_eq, List.pairwise_map]
  exact (List.pairwise_map.mp hrange).filter _

/-- Taken in any order and sorted by location, scope by scope and the global one first,
the symbols are those that the table lists. -/
theorem Sound.flatten_byLocation (h : r.Sound) {listings : List Scope}
    (hlistings : List.Forall₂ List.Perm listings r.table.scopes.reverse) :
    (listings.map Scope.byLocation).flatten = r.table.symbols := by
  have hrising := (List.pairwise_flatten.mp h.pairwise_symbols).1
  unfold SymbolTable.symbols
  congr 1
  generalize r.table.scopes.reverse = scopes at hlistings hrising
  induction hlistings with
  | nil => rfl
  | cons hperm _ ih =>
    rw [List.forall_mem_cons] at hrising
    rw [List.map_cons, Scope.byLocation_eq_of_perm hrising.1 hperm, ih hrising.2]

/-- In a scope without double names it does not matter from which end one looks. -/
theorem find?_reverse_of_nodup {scope : Scope} (h : (scope.map Symbol.name).Nodup) (name : String) :
    scope.reverse.find? (·.name = name) = scope.find? (·.name = name) := by
  induction scope with
  | nil => rfl
  | cons s scope ih =>
    rw [List.map_cons, List.nodup_cons] at h
    rw [List.reverse_cons, List.find?_append, ih h.2, List.find?_cons]
    by_cases hname : s.name = name
    · have hnone : scope.find? (·.name = name) = none := by
        rw [hname] at h
        exact Scope.lookup_eq_none_iff.mpr h.1
      simp [hname, hnone]
    · simp [hname]

/-- Looking from the innermost scope outwards is looking at all symbols from the end. -/
theorem find?_reverse_flatten {scopes : List Scope}
    (h : ∀ scope ∈ scopes, (scope.map Symbol.name).Nodup) (name : String) :
    scopes.reverse.flatten.reverse.find? (·.name = name) = scopes.findSome? (·.lookup name) := by
  induction scopes with
  | nil => rfl
  | cons scope scopes ih =>
    rw [List.forall_mem_cons] at h
    rw [List.reverse_cons, List.flatten_append, List.flatten_singleton, List.reverse_append,
      List.find?_append, find?_reverse_of_nodup h.1, ih h.2, List.findSome?_cons, Scope.lookup]
    cases scope.find? (·.name = name) <;> rfl

theorem Sound.lookup_eq (h : r.Sound) (name : String) :
    r.table.lookup name = (r.table.symbols.filter (·.name = name)).getLast? := by
  rw [List.getLast?_eq_head?_reverse, ← List.filter_reverse, List.head?_filter]
  exact (find?_reverse_flatten h.names name).symm

end Recorded

/-- After any run of acts the declarations that succeeded have the locations
`0, 1, 2, …` in their order, so none is handed out twice, not even after its scope
was left. The table lists those whose scope is still open, each once and with rising
locations through all scopes, also if it takes the symbols of each scope in any order
and sorts them by location. A name is looked up as the last symbol of that name in the
list. -/
theorem symbols_run (acts : List Act) :
    let recorded := acts.foldl Recorded.perform {}
    let t := acts.foldl perform .empty
    recorded.table = t ∧
      recorded.ledger.map (·.symbol.location) = List.range recorded.ledger.length ∧
      t.symbols = (recorded.ledger.filter Entry.live).map Entry.symbol ∧
      t.symbols.Pairwise (fun a b => a.location < b.location) ∧
      (∀ listings, List.Forall₂ List.Perm listings t.scopes.reverse →
        (listings.map Scope.byLocation).flatten = t.symbols) ∧
      ∀ name, t.lookup name = (t.symbols.filter (·.name = name)).getLast? := by
  have htable : (acts.foldl Recorded.perform {}).table = acts.foldl perform .empty :=
    Recorded.table_foldl_perform {} acts
  have hsound := Recorded.sound_empty.foldl_perform acts
  simp only [← htable]
  exact ⟨trivial, hsound.locations, hsound.symbols_eq, hsound.pairwise_symbols,
    fun _ => hsound.flatten_byLocation, hsound.lookup_eq⟩

/-- A name may be declared again in an inner scope; its location is not handed out
again when the scope is left. -/
example : (([.add "a" "INT", .openScope, .add "a" "BOOL", .closeScope, .add "b" "INT"] :
      List Act).foldl perform .empty).symbols =
    [{ name := "a", type := "INT", location := 0 },
      { name := "b", type := "INT", location := 2 }] := by
  decide

end SymbolTable

end Munch
