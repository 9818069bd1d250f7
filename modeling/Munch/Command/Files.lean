import Munch.Command.PathName

/-!
# Files by name

A `FileTree` is a directory with all that is in it, and a `FileSystem` such a
tree with a working directory. A path is followed part by part, from the root or
from the working directory, and each part must find a directory where it starts
(`FileTree.step`). So the first part that leads nowhere decides how an act on a
path fails; `FileError.message` is the text that an operating system has for it.
-/

namespace Munch

/-- Why a file or directory cannot be used. -/
inductive FileError where
  | notFound
  | alreadyExists
  | notDirectory
  | isDirectory
  | nameTooLong
  /-- A name holds the character of code 0. -/
  | unusableName
  /-- A file was read as text and is not UTF-8. -/
  | notText
  /-- Any other failure, by its text. -/
  | other (text : String)
deriving DecidableEq, Repr

/-- The text of a failure. -/
def FileError.message : FileError → String
  | notFound => "No such file or directory (os error 2)"
  | alreadyExists => "File exists (os error 17)"
  | notDirectory => "Not a directory (os error 20)"
  | isDirectory => "Is a directory (os error 21)"
  | nameTooLong => "File name too long (os error 36)"
  | unusableName => "file name contained an unexpected NUL byte"
  | notText => "stream did not contain valid UTF-8"
  | other text => text

/-! ## Trees -/

/-- A file, or a directory with what is in it. -/
inductive FileTree where
  | file (contents : List UInt8)
  | dir (entries : List (String × FileTree))

/-- A place in a tree: the names that lead to it, innermost first. The root has
no name. -/
abbrev Place := List String

namespace FileTree

/-- A directory without entries. -/
def empty : FileTree := dir []

/-- Whether this is a directory. -/
def isDir : FileTree → Bool
  | file _ => false
  | dir _ => true

/-- The entry of a name; a file has no entries. -/
def child? : FileTree → String → Option FileTree
  | file _, _ => none
  | dir entries, name => entries.lookup name

/-- What stands at a place. -/
def at? (t : FileTree) (place : Place) : Option FileTree :=
  place.foldr (fun name around => around.bind (·.child? name)) (some t)

/-- Puts an entry in place of the one of the same name, or behind the others. -/
def setEntry (entries : List (String × FileTree)) (name : String) (t : FileTree) :
    List (String × FileTree) :=
  match entries with
  | [] => [(name, t)]
  | e :: rest => if e.1 = name then (name, t) :: rest else e :: setEntry rest name t

/-- Puts a tree where a list of names leads, outermost first. There is nothing to
put it into behind a file, which stays as it is. -/
def putAlong (t inner : FileTree) : List String → FileTree
  | [] => inner
  | name :: names =>
    match t with
    | file contents => file contents
    | dir entries =>
      dir (setEntry entries name (((entries.lookup name).getD empty).putAlong inner names))

/-- Puts a tree at a place. -/
def put (t : FileTree) (place : Place) (inner : FileTree) : FileTree :=
  t.putAlong inner place.reverse

/-- The most bytes that a name has. -/
def maxNameBytes : Nat := 255

/-- Where a part of a path leads from a place: nowhere if there is no directory,
one level up on two dots, and else to the entry of that name. The root is the
level above itself. -/
def step (t : FileTree) (place : Place) (part : String) : Except FileError Place :=
  match t.at? place with
  | none => .error .notFound
  | some (file _) => .error .notDirectory
  | some (dir entries) =>
    if PathName.isTrivial part then .ok place
    else if part = ".." then .ok place.tail
    else if maxNameBytes < part.utf8ByteSize then .error .nameTooLong
    else if (entries.lookup part).isSome then .ok (part :: place)
    else .error .notFound

/-- Where a list of parts leads from a place. -/
def walk (t : FileTree) (place : Place) (parts : List String) : Except FileError Place :=
  parts.foldlM t.step place

end FileTree

/-! ## A tree with a working directory -/

/-- A tree of files, and the place in it from which paths are followed that do
not start at the root. -/
structure FileSystem where
  root : FileTree := .empty
  workDir : Place := []

namespace FileSystem

/-- The most bytes that a path has. -/
def maxPathBytes : Nat := 4095

/-- Fails if a path leads nowhere whatever the tree: it has a character of code
0, is empty or is too long. -/
def admissible (path : String) : Except FileError Unit :=
  if path.toList.contains (Char.ofNat 0) then .error .unusableName
  else if path = "" then .error .notFound
  else if maxPathBytes < path.utf8ByteSize then .error .nameTooLong
  else .ok ()

/-- The place from which a path is followed. -/
def startOf (fs : FileSystem) (path : String) : Place :=
  if PathName.isAbsolute path then [] else fs.workDir

/-- The place where a path leads. -/
def locate (fs : FileSystem) (path : String) : Except FileError Place := do
  admissible path
  fs.root.walk (fs.startOf path) (PathName.parts path)

/-- The place of the directory that holds the last part of a path. -/
def locateAround (fs : FileSystem) (path : String) : Except FileError Place := do
  admissible path
  -- the dot behind the other parts asks for a directory
  fs.root.walk (fs.startOf path) ((PathName.ending path).1 ++ ["."])

/-- Whether a path leads to a directory. -/
def isDir (fs : FileSystem) (path : String) : Bool :=
  match fs.locate path with
  | .ok place => (fs.root.at? place).any FileTree.isDir
  | .error _ => false

/-- The contents of the file at a path. -/
def readBytes (fs : FileSystem) (path : String) : Except FileError (List UInt8) := do
  match fs.root.at? (← fs.locate path) with
  | some (.file contents) => return contents
  | some (.dir _) => throw .isDirectory
  | none => throw .notFound

/-- Writes the file at a path, in a directory that is there. A path that ends
with a slash asks for a directory, and none is written. -/
def writeBytes (fs : FileSystem) (path : String) (contents : List UInt8) :
    Except FileError FileSystem := do
  let around ← fs.locateAround path
  if PathName.isSlashed path then throw .isDirectory
  let name := (PathName.ending path).2
  match fs.root.step around name with
  | .ok place =>
    if (fs.root.at? place).any FileTree.isDir then throw .isDirectory
    return { fs with root := fs.root.put place (.file contents) }
  | .error .notFound => return { fs with root := fs.root.put (name :: around) (.file contents) }
  | .error e => throw e

/-- Makes the directory at a path, in a directory that is there. -/
def makeDir (fs : FileSystem) (path : String) : Except FileError FileSystem := do
  let around ← fs.locateAround path
  let name := (PathName.ending path).2
  match fs.root.step around name with
  | .ok _ => throw .alreadyExists
  | .error .notFound => return { fs with root := fs.root.put (name :: around) .empty }
  | .error e => throw e

/-- Makes the directory at a path, unless it is there. -/
def ensureDir (fs : FileSystem) (path : String) : Except FileError FileSystem :=
  match fs.makeDir path with
  | .ok fs => .ok fs
  | .error e => if fs.isDir path then .ok fs else .error e

/-- The outcome of an act, and the files after it: a failed act changes nothing. -/
def settle (fs : FileSystem) (act : FileSystem → Except FileError FileSystem) :
    Except FileError Unit × FileSystem :=
  match act fs with
  | .ok fs => (.ok (), fs)
  | .error e => (.error e, fs)

/-- Makes the first of some directories, each of which is in the next one. Where
it has no place, the next one is made first; what is made on the way stays, even
if the last step fails. The working directory, as the empty text, is there. -/
def makeNested (fs : FileSystem) : List String → Except FileError Unit × FileSystem
  | [] => (.ok (), fs)
  | path :: outer =>
    if path = "" then (.ok (), fs)
    else
      match fs.settle (·.ensureDir path) with
      | (.error .notFound, fs) =>
        match fs.makeNested outer with
        | (.ok (), fs) => fs.settle (·.ensureDir path)
        | failed => failed
      | outcome => outcome

/-- Makes a directory and those around it, where they are missing. -/
def makeDirs (fs : FileSystem) (path : String) : Except FileError Unit × FileSystem :=
  fs.makeNested (path :: PathName.around path)

end FileSystem

end Munch
