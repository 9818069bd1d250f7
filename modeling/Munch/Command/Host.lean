import Munch.Bytes
import Munch.Command.Files

/-!
# What a command needs from its host

Commands read and write files and look at a clock, and nothing else; `Host`
lists these acts for any monad. A command collects what it prints in an `Output`
and may stop with a `Failure`. The instance for a pure `FileSystem` has no clock.
-/

namespace Munch

/-- The acts of the world outside. -/
class Host (m : Type → Type) where
  /-- Reads a file as text. -/
  readText : String → m (Except FileError String)
  /-- Makes a directory and those around it. -/
  makeDirs : String → m (Except FileError Unit)
  /-- Writes a file. -/
  writeBytes : String → List UInt8 → m (Except FileError Unit)
  /-- Nanoseconds since some fixed moment, if there is a clock. -/
  clock : m (Option Nat)

/-- A host that is a tree of files with a working directory. -/
abbrev TreeHost := StateM FileSystem

instance : Host TreeHost where
  readText path := fun fs =>
    (do
      let bytes ← fs.readBytes path
      match Bytes.toText? bytes with
      | some text => return text
      | none => throw .notText, fs)
  makeDirs path := fun fs => fs.makeDirs path
  writeBytes path contents := fun fs => fs.settle (·.writeBytes path contents)
  clock := return none

/-- What a command prints. -/
structure Output where
  stdout : String := ""
  stderr : String := ""
deriving DecidableEq, Repr

/-- Why a command stops: what it was doing, and what went wrong with a file. -/
structure Failure where
  context : String
  cause : Option FileError := none
deriving DecidableEq, Repr

/-- The report of a failure. -/
def Failure.text (f : Failure) : String :=
  match f.cause with
  | none => s!"Error: {f.context}\n"
  | some cause => s!"Error: {f.context}\n\nCaused by:\n    {cause.message}\n"

/-- How a command is called. -/
structure Invocation where
  args : List String
  /-- The variables of the environment. -/
  env : String → Option String

/-- A command over a host. -/
abbrev Command (m : Type → Type) := ExceptT Failure (StateT Output m)

namespace Command

variable {m : Type → Type} [Monad m]

/-- Prints to the standard output. -/
def print (s : String) : Command m Unit :=
  modify fun out => { out with stdout := out.stdout ++ s }

/-- Prints to the standard error. -/
def complain (s : String) : Command m Unit :=
  modify fun out => { out with stderr := out.stderr ++ s }

/-- Runs an act of the host; a failure of it is a failure of the command. -/
def attempt {α : Type} (context : String) (act : m (Except FileError α)) : Command m α := do
  match ← (act : m _) with
  | .ok a => return a
  | .error cause => throw { context, cause := some cause }

/-- Runs a command: what it printed, a failure included, and its exit code. -/
def run (c : Command m Unit) : m (Output × Nat) := do
  match ← (ExceptT.run c).run {} with
  | (.ok (), out) => return (out, 0)
  | (.error f, out) => return ({ out with stderr := out.stderr ++ f.text }, 1)

end Command

end Munch
