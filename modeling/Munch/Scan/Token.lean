/-!
# What a scan yields

A scan yields an ordered stream of items: tokens, and diagnostics about text
that is no token. Only an unterminated comment ends a scan; after any other
diagnostic the scan goes on.
-/

namespace Munch

/-- A token of the source. -/
structure Token where
  kind : String
  lexeme : String
  /-- Line on which the token starts, counted from 1. -/
  line : Nat
deriving DecidableEq, Repr

/-- A token in one line of text. -/
def Token.text (t : Token) : String :=
  s!"<{t.kind}, {t.lexeme}> at line {t.line}"

/-! ## Kinds with rules of their own -/

/-- Kind of a run of letters and digits, before it is told apart. -/
def Kind.alphanum : String := "alphanum"

/-- Kind of a name. -/
def Kind.identifier : String := "identifier"

/-- Kind of a whole number. -/
def Kind.intLiteral : String := "int_literal"

/-- Kind of a number with a point. -/
def Kind.decimalLiteral : String := "decimal_literal"

/-! ## Diagnostics -/

/-- What is wrong with the source, and on which line. -/
inductive Diagnostic where
  | unterminatedComment (line : Nat)
  | unrecognizedSymbol (line : Nat) (symbol : Char)
  | invalidDecimalLiteral (line : Nat) (lexeme : String)
  | invalidIdentifier (line : Nat) (lexeme : String)
deriving DecidableEq, Repr

namespace Diagnostic

/-- The line of a diagnostic. -/
def line : Diagnostic → Nat
  | unterminatedComment line => line
  | unrecognizedSymbol line _ => line
  | invalidDecimalLiteral line _ => line
  | invalidIdentifier line _ => line

/-- Whether the scan ends here. -/
def isFatal : Diagnostic → Bool
  | unterminatedComment _ => true
  | _ => false

/-- What is wrong, without the line. -/
def complaint : Diagnostic → String
  | unterminatedComment _ => "Unterminated multi-line comment."
  | unrecognizedSymbol _ symbol => s!"Unrecognized symbol: {symbol}"
  | invalidDecimalLiteral _ lexeme => s!"Invalid decimal literal: {lexeme}"
  | invalidIdentifier _ lexeme => s!"Invalid identifier: {lexeme}"

/-- The sentence that reports the diagnostic. -/
def message (e : Diagnostic) : String :=
  s!"Lexical error at line {e.line}: {e.complaint}"

end Diagnostic

/-- One result of a scan. -/
inductive Item where
  | token (t : Token)
  | diagnostic (e : Diagnostic)
deriving DecidableEq, Repr

namespace Item

/-- The token of an item. -/
def token? : Item → Option Token
  | token t => some t
  | diagnostic _ => none

/-- The diagnostic of an item. -/
def diagnostic? : Item → Option Diagnostic
  | token _ => none
  | diagnostic e => some e

end Item

/-- All that one scan yields, tokens and diagnostics each in order. -/
structure ScanResult where
  tokens : List Token
  errors : List Diagnostic
deriving DecidableEq, Repr

namespace ScanResult

/-- Sorts the items of a scan. -/
def ofItems (items : List Item) : ScanResult where
  tokens := items.filterMap Item.token?
  errors := items.filterMap Item.diagnostic?

/-- Whether the scan ended before the end of the source. -/
def halted (o : ScanResult) : Bool :=
  o.errors.any Diagnostic.isFatal

end ScanResult

end Munch
