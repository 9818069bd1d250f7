import Munch.Command.Host
import Munch.Dfa.Listing
import Munch.Dfa.Stored
import Munch.Sample.Check
import Munch.Sample.Source
import Munch.Symbols

/-!
# The commands

Four commands over the FOS table: `scanFile` scans a file, `writeTable` writes
the table to a file, `fuzz` checks the scanner on random or given source, and
`measure` times it. Times are printed as `N` where the host has no clock.
-/

namespace Munch

/-! ## Variables -/

namespace Setting

/-- Set to `0`, it keeps the table from being listed. -/
def listing : String := "FOSLEX_TABLE"

/-- A file to check instead of random source. -/
def checkedFile : String := "FUZZ_INPUT"

/-- How many random sources are checked. -/
def checkCount : String := "FUZZ_ITERS"

/-- How long each of them is. -/
def checkLength : String := "FUZZ_LEN"

/-- The seed of the first of them. -/
def checkSeed : String := "FUZZ_SEED"

/-- How long the measured source is. -/
def measureLength : String := "PERF_ONE_LEN"

/-- The seed of the measured source. -/
def measureSeed : String := "PERF_ONE_SEED"

/-- All variables that commands look at. -/
def all : List String :=
  [listing, checkedFile, checkCount, checkLength, checkSeed, measureLength, measureSeed]

end Setting

/-- The number that a text denotes: digits behind an optional plus sign, of a
value that fits 64 bits. -/
def Setting.number? (s : String) : Option Nat :=
  let ds := match s.toList with
    | '+' :: ds => ds
    | ds => ds
  if ds = [] then none else (Decimal.digits? ds).filter (· < UInt64.size)

/-- The number that a variable holds; one that holds no number counts as not
set, and then the default is taken. -/
def Invocation.number (inv : Invocation) (name : String) (default : Nat) : Nat :=
  ((inv.env name).bind Setting.number?).getD default

/-! ## Times and speeds -/

namespace Timing

/-- The time between two looks at the clock; none without a clock. -/
def elapsed? (before after : Option Nat) : Option Nat := do
  return (← after) - (← before)

/-- A quotient with a fixed number of places, a half rounded to the even
neighbour. -/
def quotient (num den places : Nat) : String :=
  let scaled := num * Nat.pow 10 places
  let down := scaled / den
  let twice := 2 * (scaled % den)
  let units := if den < twice ∨ (den = twice ∧ down % 2 = 1) then down + 1 else down
  String.ofList (Decimal.fixedPoint units places)

/-- Whole milliseconds. -/
def millis (elapsed : Option Nat) : String :=
  elapsed.elim "N" fun nanos => toString (nanos / 1000000)

/-- Milliseconds with two places. -/
def fineMillis (elapsed : Option Nat) : String :=
  elapsed.elim "N" fun nanos => quotient nanos 1000000 2

/-- A number of bytes in mebibytes with two places. -/
def mebibytes (bytes : Nat) : String :=
  quotient bytes 1048576 2 ++ " MiB"

/-- Mebibytes per second with one place. -/
def speed (bytes : Nat) (elapsed : Option Nat) : String :=
  elapsed.elim "N" fun nanos =>
    if nanos = 0 then "0.0" else quotient (bytes * 1000000000) (1048576 * nanos) 1

end Timing

namespace Command

variable {m : Type → Type} [Monad m] [Host m]

/-- The clock of the host. -/
def clock : Command m (Option Nat) := do
  (Host.clock : m _)

/-! ## Scanning a file -/

/-- Lists the edges of the table, unless that is turned off, then the tokens of
a file and its symbols. Diagnostics go to the standard error. -/
def scanFile (inv : Invocation) : Command m Unit := do
  unless inv.env Setting.listing = some "0" do
    print "DFA Transition Table:\n"
    print Fos.table.listing
  print s!"Total DFA States: {Fos.table.size}\n"
  let path := inv.args.head?.getD "input.fos"
  let source ← attempt s!"File not found: {path}" (Host.readText path)
  let out := Fos.tokenize source
  for e in out.errors do
    complain (e.message ++ "\n")
  print "\nTokens:\n"
  for t in out.tokens do
    print (t.text ++ "\n")
  print "\nSymbol Table:\n"
  print (SymbolTable.empty.addUnseen out.tokens).2.text

/-! ## Writing the table -/

/-- Builds the table and writes it to a file, in a directory that is made if it
is missing. -/
def writeTable (inv : Invocation) : Command m Unit := do
  let path := inv.args.head?.getD "tables/fos_dfa.json"
  match PathName.parent? path with
  | some parent => attempt s!"failed to create {parent}" (Host.makeDirs parent)
  | none => pure ()
  print "[gen_tables] building FOS tables…\n"
  let before ← clock
  let rooted := Fos.lexicon.rooted
  let d := rooted.determinize
  let edges := d.transitions.length
  let time := Timing.millis (Timing.elapsed? before (← clock))
  print (s!"[gen_tables] nfa = {rooted.nfa.size} states, dfa = {d.size} states " ++
    s!"({d.finalCount} final), {edges} edges, took {time} ms\n")
  attempt s!"failed to write {path}" (Host.writeBytes path d.toBytes)
  print s!"[gen_tables] wrote {path}\n"

/-! ## Checking the scanner -/

/-- Draws random source of a given length from a seed. -/
def drawSource (length seed : Nat) : String :=
  Sample.text (Sample.source Words.congruential length (UInt64.ofNat seed)).1

/-- Checks one random source after the other, with consecutive seeds, and adds
up their tokens. -/
def checkCases (length : Nat) : (left : Nat) → (index seed total : Nat) → Command m Nat
  | 0, _, _, total => return total
  | left + 1, index, seed, total =>
    match Fos.table.check (drawSource length seed) with
    | .ok tokens => checkCases length left (index + 1) ((seed + 1) % UInt64.size) (total + tokens)
    | .error why => throw { context := s!"case {index} (seed {seed}) failed: {why.message}" }

/-- Checks the scanner on a given file, or else on random sources. -/
def fuzz (inv : Invocation) : Command m Unit := do
  match inv.env Setting.checkedFile with
  | some path =>
    let source ← attempt s!"read {path}" (Host.readText path)
    match Fos.table.check source with
    | .ok tokens => print s!"[fuzz] replay ok: {tokens} tokens\n"
    | .error why => throw { context := s!"replay of {path} failed: {why.message}" }
  | none =>
    let cases := inv.number Setting.checkCount 200
    let length := inv.number Setting.checkLength 4096
    let seed := inv.number Setting.checkSeed 42
    let before ← clock
    let tokens ← checkCases length cases 0 seed 0
    let time := Timing.millis (Timing.elapsed? before (← clock))
    print s!"[fuzz] {cases} cases ok, {tokens} tokens, took {time} ms\n"

/-! ## Measuring the scanner -/

/-- Times the building of the table and the scan of one random source. -/
def measure (inv : Invocation) : Command m Unit := do
  let before ← clock
  let d := Fos.lexicon.table
  let time := Timing.fineMillis (Timing.elapsed? before (← clock))
  print s!"[perf_one] tables: {d.size} DFA states in {time} ms\n"
  let seed := inv.number Setting.measureSeed 42
  let source := drawSource (inv.number Setting.measureLength 10000000) seed
  let bytes := source.utf8ByteSize
  let before ← clock
  let out := d.tokenize source
  let tokens := out.tokens.length
  let elapsed := Timing.elapsed? before (← clock)
  print (s!"[perf_one] {Timing.mebibytes bytes}: {tokens} tokens, " ++
    s!"{out.errors.length} diagnostics in {Timing.fineMillis elapsed} ms " ++
    s!"({Timing.speed bytes elapsed} MiB/s)\n")

end Command

end Munch
