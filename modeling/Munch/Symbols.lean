import Munch.Scan.Token

/-!
# Symbol tables

A `SymbolTable` is a stack of scopes over one counter of memory locations. A
name is declared in the innermost scope, once per scope, and looked up from the
innermost scope outwards. Leaving a scope forgets its symbols, and their
locations are not handed out again. The global scope is never left.

Declaring a name and leaving a scope may be refused, so both return what came of it
together with the table behind it.

A scope keeps its symbols in order of declaration, which is the order of their
locations.
-/

namespace Munch

/-- A declared name. -/
structure Symbol where
  name : String
  type : String
  location : Nat
  constant : Bool := false
deriving DecidableEq, Repr

/-- A symbol in one line of text. -/
def Symbol.text (s : Symbol) : String :=
  s!"Name: {s.name}, Type: {s.type}, Memory Location: {s.location}, Constant: {s.constant}"

/-- The symbols of one scope in order of declaration. -/
abbrev Scope := List Symbol

/-- The symbol of this name. -/
def Scope.lookup (scope : Scope) (name : String) : Option Symbol :=
  scope.find? (·.name = name)

/-- Why a symbol table refuses. -/
inductive ScopeError where
  /-- The innermost scope has a symbol of this name. -/
  | alreadyDeclared (name : String)
  /-- There is no scope but the global one. -/
  | globalScope
deriving DecidableEq, Repr

/-- The sentence that reports the refusal. -/
def ScopeError.message : ScopeError → String
  | .alreadyDeclared name => s!"Symbol {name} already declared."
  | .globalScope => "Cannot exit global scope"

/-- A stack of scopes. -/
structure SymbolTable where
  /-- The innermost scope. -/
  current : Scope := []
  /-- The scopes around it, the global one last. -/
  enclosing : List Scope := []
  /-- The location of the next symbol. -/
  nextLocation : Nat := 0
deriving DecidableEq, Repr

namespace SymbolTable

/-- A table with an empty global scope. -/
def empty : SymbolTable := {}

/-- All scopes, the innermost first. -/
def scopes (t : SymbolTable) : List Scope :=
  t.current :: t.enclosing

/-- The number of scopes. -/
def depth (t : SymbolTable) : Nat :=
  t.enclosing.length + 1

/-- Opens a scope inside the innermost one. -/
def openScope (t : SymbolTable) : SymbolTable :=
  { t with current := [], enclosing := t.scopes }

/-- Leaves the innermost scope. -/
def closeScope (t : SymbolTable) : Except ScopeError Unit × SymbolTable :=
  match t.enclosing with
  | [] => (.error .globalScope, t)
  | outer :: enclosing => (.ok (), { t with current := outer, enclosing })

/-- The symbol that a declaration of `name` makes now. -/
def fresh (t : SymbolTable) (name type : String) : Symbol where
  name := name
  type := type
  location := t.nextLocation

/-- Declares a name in the innermost scope, at the next location, and answers its
symbol. -/
def add (t : SymbolTable) (name type : String) : Except ScopeError Symbol × SymbolTable :=
  match t.current.lookup name with
  | some _ => (.error (.alreadyDeclared name), t)
  | none =>
    let symbol := t.fresh name type
    (.ok symbol, { t with
      current := t.current ++ [symbol]
      nextLocation := t.nextLocation + 1 })

/-- The innermost symbol of this name. -/
def lookup (t : SymbolTable) (name : String) : Option Symbol :=
  t.scopes.findSome? (·.lookup name)

/-- Type of names that are registered without a declaration. -/
def unknownType : String := "undefined"

/-- Adds a name that is not visible yet, and counts it. -/
def addIfUnseen (counted : Nat × SymbolTable) (name : String) : Nat × SymbolTable :=
  let (count, t) := counted
  match t.lookup name with
  | some _ => (count, t)
  | none =>
    match t.add name unknownType with
    | (.ok _, t) => (count + 1, t)
    | (.error _, t) => (count, t)

/-- Adds the names among the tokens that are not visible yet, in order, and
counts them. -/
def addUnseen (t : SymbolTable) (tokens : List Token) : Nat × SymbolTable :=
  ((tokens.filter (·.kind = Kind.identifier)).map Token.lexeme).foldl addIfUnseen (0, t)

/-- All symbols, those of the global scope first. -/
def symbols (t : SymbolTable) : List Symbol :=
  t.scopes.reverse.flatten

/-- All symbols as a text, one line each under a head line. -/
def text (t : SymbolTable) : String :=
  "Symbol Table Contents:\n" ++ String.join (t.symbols.map fun s => s.text ++ "\n")

end SymbolTable

end Munch
