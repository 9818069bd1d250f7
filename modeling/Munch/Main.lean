import Munch.Command.Programs

/-!
# The command line

The first argument names the command: `scan` (also when there is no argument),
`tables`, `fuzz` or `measure`. The others are passed on.
-/

namespace Munch

/-- The number of an error of the operating system; some acts report it below
zero. -/
def errorNumber (code : UInt32) : UInt32 :=
  if code < 0x80000000 then code else -code

/-- The failure that an error of the operating system stands for. -/
def FileError.ofSystem (e : IO.Error) : FileError :=
  match e with
  | .noFileOrDirectory .. => .notFound
  | .alreadyExists .. => .alreadyExists
  | .inappropriateType _ code _ => if errorNumber code = 21 then .isDirectory else .notDirectory
  | .invalidArgument _ code _ =>
    if errorNumber code = 36 then .nameTooLong else .other (toString e)
  | _ => .other (toString e)

/-- Runs an act on files and keeps its error as a value. -/
def keepError {α : Type} (act : IO α) : IO (Except FileError α) := do
  match ← act.toBaseIO with
  | .ok a => return .ok a
  | .error e => return .error (.ofSystem e)

instance : Host IO where
  readText path := do
    match ← keepError (IO.FS.readBinFile path) with
    | .error e => return .error e
    | .ok bytes => return (String.fromUTF8? bytes).elim (.error .notText) .ok
  makeDirs path := keepError (IO.FS.createDirAll path)
  writeBytes path contents := keepError (IO.FS.writeBinFile path contents.toByteArray)
  clock := return some (← IO.monoNanosNow)

/-- The command of a name. -/
def commandOf? (name : String) : Option (Invocation → Command IO Unit) :=
  match name with
  | "scan" => some Command.scanFile
  | "tables" => some Command.writeTable
  | "fuzz" => some Command.fuzz
  | "measure" => some Command.measure
  | _ => none

end Munch

open Munch in
/-- Runs one command and prints what it printed. -/
def main (args : List String) : IO UInt32 := do
  let settings ← Setting.all.filterMapM fun name => do
    return (← IO.getEnv name).map (name, ·)
  match commandOf? (args.head?.getD "scan") with
  | none =>
    IO.eprintln "usage: scan [FILE] | tables [FILE] | fuzz | measure"
    return 2
  | some command =>
    let (out, code) ← (command { args := args.drop 1, env := (settings.lookup ·) }).run
    IO.print out.stdout
    IO.eprint out.stderr
    return UInt32.ofNat code
