import Mathlib.Data.List.Induction
import Mathlib.Data.List.Infix
import Munch.Proofs.Symbols.Unseen

/-!
# Scopes as brackets

What is done between the opening of a scope and its closing does not show afterwards.
An act inside reads all scopes, but it writes to the innermost one and to the scopes
that were opened inside (`Above.perform`), so the scopes outside stay on the stack as
they are, and closing uncovers them (`closeScope_of_balanced`).

The one trace is the counter of locations. `SymbolTable.declared` lists the symbols
that a run declares, with those of scopes that were left; their locations go up one by
one from the counter at the beginning (`location_declared`).
-/

namespace Munch.SymbolTable

variable {t : SymbolTable} {acts : List Act} {outer : List Scope}

/-! ## Balanced runs -/

/-- Whether the act opens a scope. -/
def Act.opens : Act → Bool
  | .openScope => true
  | _ => false

/-- Whether the act leaves a scope. -/
def Act.closes : Act → Bool
  | .closeScope => true
  | _ => false

/-- Scopes are opened before they are left, and all of them are left. -/
structure Balanced (acts : List Act) : Prop where
  front : ∀ front, front <+: acts → front.countP Act.closes ≤ front.countP Act.opens
  total : acts.countP Act.closes = acts.countP Act.opens

theorem balanced_iff_inits : Balanced acts ↔
    (∀ front ∈ acts.inits, front.countP Act.closes ≤ front.countP Act.opens) ∧
      acts.countP Act.closes = acts.countP Act.opens := by
  simp only [List.mem_inits]
  exact ⟨fun h => ⟨h.front, h.total⟩, fun h => ⟨h.1, h.2⟩⟩

instance (acts : List Act) : Decidable (Balanced acts) :=
  decidable_of_iff' _ balanced_iff_inits

/-- Around the innermost scope are those that the acts opened and did not leave, and
then the outer ones. -/
def Above (outer : List Scope) (acts : List Act) (t : SymbolTable) : Prop :=
  ∃ inner, inner.length + acts.countP Act.closes = acts.countP Act.opens ∧
    t.enclosing = inner ++ outer

theorem enclosing_add (t : SymbolTable) (name type : String) :
    (t.perform (.add name type)).enclosing = t.enclosing := by
  show (t.add name type).2.enclosing = _
  rcases hadd : t.add name type with ⟨e | s, t'⟩
  · rw [(add_eq_error_iff.mp hadd).2.2]
  · rw [(add_eq_ok_iff.mp hadd).2.2]

theorem enclosing_addUnseen (t : SymbolTable) (tokens : List Token) :
    (t.perform (.addUnseen tokens)).enclosing = t.enclosing := by
  show (t.addUnseen tokens).2.enclosing = _
  rw [addUnseen_eq]
  rfl

/-- One more act keeps the outer scopes, unless it leaves more than was opened. -/
theorem Above.perform (h : Above outer acts t) (act : Act)
    (hact : (acts ++ [act]).countP Act.closes ≤ (acts ++ [act]).countP Act.opens) :
    Above outer (acts ++ [act]) (t.perform act) := by
  obtain ⟨inner, hlength, henclosing⟩ := h
  rw [List.countP_append, List.countP_append] at hact
  unfold Above
  rw [List.countP_append, List.countP_append]
  cases act with
  | openScope =>
    refine ⟨t.current :: inner, ?_, ?_⟩
    · simp [Act.opens, Act.closes]
      omega
    · show t.current :: t.enclosing = _
      rw [henclosing]
      rfl
  | closeScope =>
    cases inner with
    | nil =>
      simp [Act.opens, Act.closes] at hact hlength
      omega
    | cons scope inner =>
      have hclose : t.closeScope =
          (.ok (), { t with current := scope, enclosing := inner ++ outer }) :=
        closeScope_eq_ok_iff.mpr ⟨scope, inner ++ outer, henclosing, rfl⟩
      refine ⟨inner, ?_, ?_⟩
      · simp [Act.opens, Act.closes] at hlength ⊢
        omega
      · show t.closeScope.2.enclosing = _
        rw [hclose]
  | add name type =>
    refine ⟨inner, ?_, (t.enclosing_add name type).trans henclosing⟩
    simpa [Act.opens, Act.closes] using hlength
  | addUnseen tokens =>
    refine ⟨inner, ?_, (t.enclosing_addUnseen tokens).trans henclosing⟩
    simpa [Act.opens, Act.closes] using hlength

/-- A run that never leaves more than it opened keeps the outer scopes. -/
theorem above_foldl_perform (t : SymbolTable)
    (hacts : ∀ front, front <+: acts → front.countP Act.closes ≤ front.countP Act.opens) :
    Above t.enclosing acts (acts.foldl perform t) := by
  induction acts using List.reverseRecOn with
  | nil => exact ⟨[], rfl, rfl⟩
  | append_singleton acts act ih =>
    rw [List.foldl_append]
    apply (ih fun front hfront => hacts front (hfront.trans (List.prefix_append _ _))).perform
    exact hacts _ (List.prefix_refl _)

/-- Behind a balanced run the scope that was opened before can be left, and this uncovers
the scopes that were there. -/
theorem closeScope_of_balanced (t : SymbolTable) (h : Balanced acts) :
    (acts.foldl perform t.openScope).closeScope =
      (.ok (), { t with nextLocation := (acts.foldl perform t.openScope).nextLocation }) := by
  obtain ⟨inner, hlength, henclosing⟩ := above_foldl_perform t.openScope h.front
  have hinner : inner = [] := by
    rw [h.total] at hlength
    exact List.eq_nil_of_length_eq_zero (by omega)
  subst hinner
  exact closeScope_eq_ok_iff.mpr ⟨t.current, t.enclosing, henclosing, rfl⟩

/-! ## Locations -/

/-- The symbols that the acts declare, in order, also those of scopes that are left. -/
def declared (t : SymbolTable) (acts : List Act) : List Symbol :=
  (acts.foldl Recorded.perform ⟨t, []⟩).ledger.map Entry.symbol

/-- The locations in the ledger count up from `first` to the next one of the table. -/
structure Recorded.CountsFrom (first : Nat) (r : Recorded) : Prop where
  locations : r.ledger.map (·.symbol.location) = List.range' first r.ledger.length
  next : r.table.nextLocation = first + r.ledger.length

namespace Recorded.CountsFrom

variable {first : Nat} {r : Recorded}

theorem closeScope (h : r.CountsFrom first) : r.closeScope.CountsFrom first := by
  obtain heq | ⟨outer, enclosing, _, heq⟩ := r.closeScope_cases
  · rw [heq]
    exact h
  · rw [heq]
    refine ⟨?_, ?_⟩
    · rw [List.map_map, List.length_map, ← h.locations]
      exact List.map_congr_left fun e _ => location_leave _ e
    · rw [List.length_map]
      exact h.next

theorem add (h : r.CountsFrom first) (name type : String) :
    (r.add name type).CountsFrom first := by
  obtain heq | ⟨_, heq⟩ := r.add_cases name type
  · rw [heq]
    exact h
  · rw [heq]
    refine ⟨?_, ?_⟩
    · rw [List.map_append, h.locations, List.length_append, List.length_singleton,
        List.range'_concat, Nat.one_mul, ← h.next]
      rfl
    · rw [List.length_append, List.length_singleton, ← Nat.add_assoc, ← h.next]

theorem perform (h : r.CountsFrom first) (act : Act) : (r.perform act).CountsFrom first :=
  perform_induct (P := CountsFrom first) (fun _ h => ⟨h.locations, h.next⟩)
    (fun _ => CountsFrom.closeScope) (fun _ name type h => h.add name type) h act

end Recorded.CountsFrom

theorem countsFrom_declared (t : SymbolTable) (acts : List Act) :
    (acts.foldl Recorded.perform ⟨t, []⟩).CountsFrom t.nextLocation :=
  Recorded.foldl_perform_induct (P := Recorded.CountsFrom t.nextLocation)
    (fun _ act h => h.perform act) ⟨rfl, rfl⟩ acts

/-- A run takes the locations from the next one on, one by one. -/
theorem location_declared (t : SymbolTable) (acts : List Act) :
    (t.declared acts).map Symbol.location =
      List.range' t.nextLocation (t.declared acts).length := by
  have hlocations := (t.countsFrom_declared acts).locations
  rw [declared, List.map_map, List.length_map]
  exact hlocations

theorem nextLocation_foldl_perform (t : SymbolTable) (acts : List Act) :
    (acts.foldl perform t).nextLocation = t.nextLocation + (t.declared acts).length := by
  have hnext := (t.countsFrom_declared acts).next
  rw [Recorded.table_foldl_perform] at hnext
  rw [declared, List.length_map]
  exact hnext

/-! ## Brackets -/

/-- A scope that is opened and left around a balanced run leaves the depth, the symbols,
what names are looked up as and the text of the table as they were. Inside, locations go
up from the next one, and whatever comes later goes on behind them. A declaration is
refused if the name has a symbol in the innermost scope, and leaving if there is no
scope but the global one; either way the table is given back as it was. -/
theorem bracket_restores (t : SymbolTable) (hacts : Balanced acts) :
    (∃ t', (acts.foldl perform t.openScope).closeScope = (.ok (), t') ∧
      t'.depth = t.depth ∧ (∀ name, t'.lookup name = t.lookup name) ∧
      t'.symbols = t.symbols ∧ t'.text = t.text ∧
      (t.openScope.declared acts).map Symbol.location =
        List.range' t.nextLocation (t.openScope.declared acts).length ∧
      ∀ later, (t'.declared later).map Symbol.location =
        List.range' (t.nextLocation + (t.openScope.declared acts).length)
          (t'.declared later).length) ∧
    (∀ name type e t', t.add name type = (.error e, t') ↔
      name ∈ t.current.map Symbol.name ∧ e = .alreadyDeclared name ∧ t' = t) ∧
    ∀ e t', t.closeScope = (.error e, t') ↔ t.depth = 1 ∧ e = .globalScope ∧ t' = t := by
  refine ⟨⟨_, t.closeScope_of_balanced hacts, rfl, fun _ => rfl, rfl, rfl,
    t.openScope.location_declared acts, fun later => ?_⟩, fun _ _ _ _ => add_eq_error_iff,
    fun _ _ => closeScope_eq_error_iff⟩
  rw [location_declared, nextLocation_foldl_perform]
  rfl

/-- A name that is declared in three scopes, and refused in one of them. -/
def nested : List Act :=
  [.add "x" "CHAR", .openScope, .addUnseen [⟨"identifier", "x", 1⟩, ⟨"identifier", "z", 1⟩],
    .add "x" "BOOL", .closeScope, .add "x" "INT"]

/-- Outside, the name is what it was, and the next location is behind the three that were
handed out inside. -/
theorem bracket_restores_nested : Balanced nested ∧
    ∃ t', (nested.foldl perform (empty.perform (.add "x" "INT")).openScope).closeScope =
        (.ok (), t') ∧
      t'.symbols = [{ name := "x", type := "INT", location := 0 }] ∧
      (t'.declared [.add "y" "INT"]).map Symbol.location = [4] := by
  have hbalanced : Balanced nested := by decide
  obtain ⟨⟨t', hclose, _, _, hsymbols, _, _, hlater⟩, _⟩ :=
    bracket_restores (empty.perform (.add "x" "INT")) hbalanced
  refine ⟨hbalanced, t', hclose, hsymbols.trans (by decide), ?_⟩
  have hinside : ((empty.perform (.add "x" "INT")).openScope.declared nested).length = 3 := by
    decide
  have hnext : (t'.declared [.add "y" "INT"]).length = 1 := by
    cases hclose
    rfl
  rw [hlater, hinside, hnext]
  rfl

end Munch.SymbolTable
