/-!
# Paths as they are written

A path is a text whose parts stand between slashes. `PathName.parts` splits it,
`PathName.ending` sets its last part apart, and `PathName.around` lists the
directories around it. Where a path leads is a question to a tree of files; all
here is about its text alone.
-/

namespace Munch.PathName

/-- The parts of a path. A path that starts or ends with a slash has an empty
part there. -/
def parts (path : String) : List String :=
  path.splitOn "/"

/-- Whether a path starts at the root. -/
def isAbsolute (path : String) : Bool :=
  path.startsWith "/"

/-- Whether a path ends with a slash, and so asks for a directory. -/
def isSlashed (path : String) : Bool :=
  path.endsWith "/"

/-- Whether a part of a path stays where it is. -/
def isTrivial (part : String) : Bool :=
  part = "" || part = "."

/-- The parts before the last one, and the last one; slashes at the end are left
out. The root has the empty text as its last part. -/
def ending (path : String) : List String × String :=
  match (parts path).reverse.dropWhile (· = "") with
  | [] => ([], "")
  | last :: before => (before.reverse, last)

/-- Whether the part at a position counts as a level of its path: every part
that leads elsewhere does, and a dot in front. -/
def isLevel (part : String) (position : Nat) : Bool :=
  !isTrivial part || (part = "." && position = 0)

/-- The positions of the parts that count as levels. -/
def levels (path : String) : List Nat :=
  ((parts path).zipIdx.filter fun (part, position) => isLevel part position).map Prod.snd

/-- The text of a path up to the part at a position. -/
def upTo (path : String) (position : Nat) : String :=
  "/".intercalate ((parts path).take (position + 1))

/-- The directories around a path, innermost first. The last of them is the root
or, as the empty text, the working directory; these two have none. -/
def around (path : String) : List String :=
  match (levels path).reverse with
  | [] => []
  | _ :: outer => outer.map (upTo path) ++ [if isAbsolute path then "/" else ""]

/-- The path of the directory around a path, if there is one. -/
def parent? (path : String) : Option String :=
  (around path).head?

end Munch.PathName
