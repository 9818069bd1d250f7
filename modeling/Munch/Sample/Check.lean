import Munch.Scan.Scanner

/-!
# Checking a scan

`Dfa.check` scans a source that should be free of diagnostics and looks for
signs of a broken scanner: a diagnostic, a second pass that collects token by token
and comes to something else, line numbers that go backwards, or lexemes that scan
differently when they are joined by single spaces.
-/

namespace Munch

/-- What a check finds. -/
inductive CheckFailure where
  | unexpected (e : Diagnostic)
  | lazyDiagnostic (e : Diagnostic)
  | scansDisagree
  | linesBackwards
  | unstable
deriving DecidableEq, Repr

/-- The sentence that reports the finding. -/
def CheckFailure.message : CheckFailure → String
  | .unexpected e => s!"unexpected diagnostic: {e.message}"
  | .lazyDiagnostic e => s!"lazy scan diagnostic: {e.message}"
  | .scansDisagree => "lazy and eager scans disagree"
  | .linesBackwards => "line numbers go backwards"
  | .unstable => "re-lexing joined lexemes changed the stream"

/-- Whether the line numbers of neighbours never fall. -/
def linesAscend (tokens : List Token) : Bool :=
  (tokens.zip (tokens.drop 1)).all fun pair => pair.1.line ≤ pair.2.line

/-- Collects the tokens that are left behind those collected, latest first. The first
diagnostic ends it. -/
def Scanner.collectOnto (d : Dfa) (s : Scanner) (collected : List Token) :
    Except Diagnostic (List Token) :=
  match _h : s.next d with
  | (none, _) => .ok collected.reverse
  | (some (.diagnostic e), _) => .error e
  | (some (.token t), s') => s'.collectOnto d (t :: collected)
termination_by s.weight
decreasing_by exact weight_next_lt _h

namespace Dfa

/-- The tokens of a source, or the first diagnostic. -/
def collect (d : Dfa) (source : String) : Except Diagnostic (List Token) :=
  (Scanner.ofText source).collectOnto d []

/-- Whether the lexemes, joined by single spaces, scan to the same kinds and
lexemes again. -/
def relexes (d : Dfa) (tokens : List Token) : Bool :=
  let again := d.tokenize (" ".intercalate (tokens.map Token.lexeme))
  again.errors.isEmpty &&
    again.tokens.map (fun t => (t.kind, t.lexeme)) == tokens.map (fun t => (t.kind, t.lexeme))

/-- The number of tokens of a source without fault. -/
def check (d : Dfa) (source : String) : Except CheckFailure Nat := do
  let out := d.tokenize source
  if let e :: _ := out.errors then throw (.unexpected e)
  let collected ← (d.collect source).mapError .lazyDiagnostic
  if collected ≠ out.tokens then throw .scansDisagree
  if !linesAscend out.tokens then throw .linesBackwards
  if !d.relexes out.tokens then throw .unstable
  return out.tokens.length

end Dfa

end Munch
