import Munch.Determinize
import Munch.Nfa.Patterns
import Munch.Scan.Scanner

/-!
# The tokens of FOS

`Fos.lexicon` declares the tokens of the FOS language in order of priority:
keywords, string and decimal literals, operators, and last the run of letters
and digits, so that every fixed token outranks it. Comments are trivia of the
scanner and have no entry here. `Fos.table` is the table that scans FOS source.
-/

namespace Munch.Fos

/-- A token that is always written the same way. -/
structure FixedToken where
  name : String
  text : String
  /-- The text as bytes is not empty, so it has a fragment. -/
  text_ne : Bytes.ofText text ≠ [] := by decide

/-- Words with a meaning of their own. -/
def keywords : List FixedToken :=
  [ { name := "INT", text := "INT" },
    { name := "DECIMAL", text := "DECIMAL" },
    { name := "BOOL", text := "BOOL" },
    { name := "CHAR", text := "CHAR" },
    { name := "input", text := "input" },
    { name := "output", text := "output" } ]

/-- Operators and punctuation. -/
def operators : List FixedToken :=
  [ { name := "plus", text := "+" },
    { name := "minus", text := "-" },
    { name := "mult", text := "*" },
    { name := "div", text := "/" },
    { name := "mod", text := "%" },
    { name := "exp", text := "^" },
    { name := "lparen", text := "(" },
    { name := "rparen", text := ")" },
    { name := "semicolon", text := ";" },
    { name := "assign", text := "=" } ]

/-- Kind of a string literal. -/
def stringKind : String := "string_literal"

/-- Declares tokens of fixed text, in order. -/
def declareFixed (l : Lexicon) (tokens : List FixedToken) : Lexicon :=
  tokens.foldl (fun l t => l.declareBuilt t.name (Build.text (Bytes.ofText t.text) t.text_ne)) l

/-- The tokens in order of priority. -/
def lexicon : Lexicon :=
  let l := declareFixed .empty keywords
  let l := l.declareBuilt stringKind Pattern.stringLiteral
  let l := l.declareBuilt Kind.decimalLiteral Pattern.decimalLiteral
  let l := declareFixed l operators
  l.declareBuilt Kind.alphanum Pattern.alphanumeric

/-- The table that scans FOS source. -/
def table : Dfa :=
  lexicon.table

/-- The tokens and diagnostics of a FOS source. -/
def tokenize (source : String) : ScanResult :=
  table.tokenize source

end Munch.Fos
