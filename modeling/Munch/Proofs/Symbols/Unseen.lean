import Munch.Proofs.Symbols

/-!
# Names that are added from tokens

Tokens are added to a table name by name, and each name is looked up in the table
that the names before it left. `SymbolTable.unseen` says what comes of it in terms of
the table at the beginning: the names that are not visible there, each once, in the
order in which they first occur. `foldl_addIfUnseen` is the run of the whole list; it
follows from what one name does (`addIfUnseen_of_none`, `addIfUnseen_of_some`).
-/

namespace Munch

variable {name : String}

theorem Scope.lookup_append (scope more : Scope) (name : String) :
    Scope.lookup (scope ++ more) name = (scope.lookup name).or (more.lookup name) :=
  List.find?_append

namespace SymbolTable

variable {t : SymbolTable} {names : List String}

/-- Those of the names that are not visible, in order of first occurrence. -/
def unseen (t : SymbolTable) (names : List String) : List String :=
  (names.filter fun name => (t.lookup name).isNone).eraseDups

/-- The symbols of new names, at one location after the other. -/
def freshAll (t : SymbolTable) (names : List String) : Scope :=
  names.mapIdx fun i name => { name, type := unknownType, location := t.nextLocation + i }

/-- The table with the names declared in the innermost scope. -/
def declareAll (t : SymbolTable) (names : List String) : SymbolTable :=
  { t with
    current := t.current ++ t.freshAll names
    nextLocation := t.nextLocation + names.length }

/-! ## Declaring several names -/

@[simp] theorem declareAll_nil (t : SymbolTable) : t.declareAll [] = t := by
  simp [declareAll, freshAll]

theorem declareAll_cons (t : SymbolTable) (name : String) (names : List String) :
    t.declareAll (name :: names) = (t.declareAll [name]).declareAll names := by
  simp [declareAll, freshAll, List.mapIdx_cons, Nat.add_assoc, Nat.add_comm 1]

theorem names_freshAll (t : SymbolTable) (names : List String) :
    (t.freshAll names).map Symbol.name = names := by
  apply List.ext_getElem
  · simp [freshAll]
  · intro i _ _
    simp [freshAll]

theorem lookup_freshAll_eq_none_iff :
    (t.freshAll names).lookup name = none ↔ name ∉ names := by
  rw [Scope.lookup_eq_none_iff, names_freshAll]

/-- The innermost scope is looked at first. -/
theorem lookup_eq_or (t : SymbolTable) (name : String) :
    t.lookup name = (t.current.lookup name).or (t.enclosing.findSome? (·.lookup name)) := by
  rw [lookup, scopes, List.findSome?_cons]
  cases t.current.lookup name <;> rfl

/-- The new symbols are behind those of the innermost scope and before the scopes around
it. -/
theorem lookup_declareAll (t : SymbolTable) (names : List String) (name : String) :
    (t.declareAll names).lookup name =
      ((t.current.lookup name).or ((t.freshAll names).lookup name)).or
        (t.enclosing.findSome? (·.lookup name)) := by
  rw [lookup_eq_or]
  show (Scope.lookup (t.current ++ t.freshAll names) name).or _ = _
  rw [Scope.lookup_append]
  rfl

/-- A name that is not declared now is looked up as before. -/
theorem lookup_declareAll_of_not_mem (h : name ∉ names) :
    (t.declareAll names).lookup name = t.lookup name := by
  rw [lookup_declareAll, lookup_freshAll_eq_none_iff.mpr h, Option.or_none, lookup_eq_or]

theorem lookup_declareAll_eq_none_iff :
    (t.declareAll names).lookup name = none ↔ t.lookup name = none ∧ name ∉ names := by
  rw [lookup_declareAll, lookup_eq_or, ← lookup_freshAll_eq_none_iff (t := t)]
  simp only [Option.or_eq_none_iff]
  exact and_right_comm

/-! ## Names that are not visible -/

theorem mem_unseen : name ∈ t.unseen names ↔ name ∈ names ∧ t.lookup name = none := by
  simp [unseen]

theorem unseen_cons_of_some {s : Symbol} (h : t.lookup name = some s) :
    t.unseen (name :: names) = t.unseen names := by
  simp [unseen, h]

/-- A name that is not visible comes first; behind it count the names that are not
visible once it is declared. -/
theorem unseen_cons_of_none (h : t.lookup name = none) :
    t.unseen (name :: names) = name :: (t.declareAll [name]).unseen names := by
  have hsame : (names.filter fun other => ((t.declareAll [name]).lookup other).isNone) =
      (names.filter fun other => (t.lookup other).isNone).filter fun other => !other == name := by
    rw [List.filter_filter]
    refine List.filter_congr fun other _ => ?_
    rw [Bool.eq_iff_iff]
    simp [lookup_declareAll_eq_none_iff, and_comm]
  rw [unseen, unseen, List.filter_cons_of_pos (by simp [h]), List.eraseDups_cons, hsame]

/-- Once the names are declared they are visible. -/
theorem lookup_declareAll_unseen (h : name ∈ names) :
    (t.declareAll (t.unseen names)).lookup name ≠ none := by
  intro hnone
  obtain ⟨hbefore, hnot⟩ := lookup_declareAll_eq_none_iff.mp hnone
  exact hnot (mem_unseen.mpr ⟨h, hbefore⟩)

theorem unseen_declareAll_unseen (t : SymbolTable) (names : List String) :
    (t.declareAll (t.unseen names)).unseen names = [] := by
  apply List.eq_nil_iff_forall_not_mem.mpr
  intro name hname
  obtain ⟨hmem, hnone⟩ := mem_unseen.mp hname
  exact lookup_declareAll_unseen hmem hnone

/-! ## One name after the other -/

theorem addIfUnseen_of_some {s : Symbol} (h : t.lookup name = some s) (count : Nat) :
    addIfUnseen (count, t) name = (count, t) := by
  simp [addIfUnseen, h]

/-- A name that is not visible in any scope is not in the innermost one either, so it
is declared. -/
theorem addIfUnseen_of_none (h : t.lookup name = none) (count : Nat) :
    addIfUnseen (count, t) name = (count + 1, t.declareAll [name]) := by
  have hcurrent : t.current.lookup name = none := by
    rw [lookup_eq_or, Option.or_eq_none_iff] at h
    exact h.1
  have hadd : t.add name unknownType = (.ok (t.fresh name unknownType), t.declareAll [name]) :=
    add_eq_ok_iff.mpr ⟨hcurrent, rfl, rfl⟩
  simp [addIfUnseen, h, hadd]

/-- The whole list adds the names that were not visible before, each once. -/
theorem foldl_addIfUnseen (t : SymbolTable) (count : Nat) (names : List String) :
    names.foldl addIfUnseen (count, t) =
      (count + (t.unseen names).length, t.declareAll (t.unseen names)) := by
  induction names generalizing t count with
  | nil => simp [unseen]
  | cons name names ih =>
    cases hlookup : t.lookup name with
    | some s => rw [List.foldl_cons, addIfUnseen_of_some hlookup, ih, unseen_cons_of_some hlookup]
    | none =>
      rw [List.foldl_cons, addIfUnseen_of_none hlookup, ih, ← declareAll_cons,
        unseen_cons_of_none hlookup, List.length_cons, Nat.add_assoc, Nat.add_comm 1]

theorem addUnseen_eq (t : SymbolTable) (tokens : List Token) :
    t.addUnseen tokens = ((t.unseen (identifiers tokens)).length,
      t.declareAll (t.unseen (identifiers tokens))) := by
  have hall := t.foldl_addIfUnseen 0 (identifiers tokens)
  rw [Nat.zero_add] at hall
  exact hall

/-- Adding tokens declares in the innermost scope, without a type and at the locations
from the next one on, the distinct names of identifiers that were not visible, in order
of first occurrence, and counts them. All other names are looked up as before, every
identifier of the tokens is visible, and the same tokens once more add nothing. -/
theorem addUnseen_declares (t : SymbolTable) (tokens : List Token) :
    ∃ t', t.addUnseen tokens = ((t.unseen (identifiers tokens)).length, t') ∧
      t'.current = t.current ++ (t.unseen (identifiers tokens)).mapIdx (fun i name =>
        { name, type := "undefined", location := t.nextLocation + i, constant := false }) ∧
      t'.enclosing = t.enclosing ∧
      t'.nextLocation = t.nextLocation + (t.unseen (identifiers tokens)).length ∧
      (∀ name, name ∉ t.unseen (identifiers tokens) → t'.lookup name = t.lookup name) ∧
      (∀ token ∈ tokens, token.kind = Kind.identifier → ∃ s, t'.lookup token.lexeme = some s) ∧
      t'.addUnseen tokens = (0, t') := by
  refine ⟨_, t.addUnseen_eq tokens, rfl, rfl, rfl, ?_, ?_, ?_⟩
  · exact fun name hname => lookup_declareAll_of_not_mem hname
  · intro token htoken hkind
    apply Option.ne_none_iff_exists'.mp
    apply lookup_declareAll_unseen
    exact List.mem_map_of_mem (List.mem_filter.mpr ⟨htoken, decide_eq_true hkind⟩)
  · rw [addUnseen_eq, unseen_declareAll_unseen]
    simp

/-- A name counts once, and neither a visible name nor the text of another token does. -/
example : (([.add "a" "INT", .openScope, .addUnseen [⟨"identifier", "b", 1⟩, ⟨"identifier", "a", 1⟩,
      ⟨"int_literal", "7", 1⟩, ⟨"identifier", "b", 2⟩]] : List Act).foldl perform .empty).symbols =
    [{ name := "a", type := "INT", location := 0 },
      { name := "b", type := "undefined", location := 1 }] := by
  decide

end SymbolTable

end Munch
