import Munch.Fos
import Munch.Sample.Words

/-!
# Random source

`Sample.source` draws FOS source that scans without diagnostics: pieces, each
followed by a gap so that neighbours never run together, until a given length
is reached. `Sample.text` writes them down.
-/

namespace Munch

/-- A piece of source: a token or a comment. -/
inductive Piece where
  | identifier (letters : List Char)
  | integer (digits : List Char)
  | decimal (whole fraction : List Char)
  | keyword (token : Fos.FixedToken)
  | string (body : List Char)
  /-- A line comment with the newline that ends it. -/
  | lineComment (body : List Char)
  /-- A block comment, possibly with a newline before its end. -/
  | blockComment (body : List Char) (newline : Bool)
  | operator (token : Fos.FixedToken)

/-- The characters of a piece. -/
def Piece.text : Piece → List Char
  | identifier letters => letters
  | integer digits => digits
  | decimal whole fraction => whole ++ '.' :: fraction
  | keyword token => token.text.toList
  | string body => '"' :: (body ++ ['"'])
  | lineComment body => '/' :: '/' :: (body ++ ['\n'])
  | blockComment body newline =>
    '/' :: '*' :: (body ++ (if newline then ['\n'] else []) ++ ['*', '/'])
  | operator token => token.text.toList

/-- What stands between two pieces. -/
inductive Gap where
  | space
  | newline
  | tab
  | lineEnd
deriving DecidableEq, Repr

/-- The characters of a gap. -/
def Gap.text : Gap → List Char
  | space => [' ']
  | newline => ['\n']
  | tab => ['\t']
  | lineEnd => ['\r', '\n']

namespace Sample

variable {σ : Type} (word : Draw σ UInt32)

/-- Letters of identifiers and of block comments. -/
def letters : List Char :=
  ['a', 'b', 'c', 'd', 'e', 'f', 'g', 'h', 'i', 'j', 'k', 'l', 'm', 'n', 'o', 'p', 'q', 'r', 's',
    't', 'u', 'v', 'w', 'x', 'y', 'z']

/-- Digits of numbers. -/
def digits : List Char :=
  ['0', '1', '2', '3', '4', '5', '6', '7', '8', '9']

/-- Characters of strings and line comments: printable, no quote. Blanks come
several times, so they are drawn more often. -/
def bodyChars : List Char :=
  ['a', 'b', 'c', ' ', 'X', 'Y', 'Z', ' ', '0', '1', '9', ' ', '+', '-', '*', '/', '%', '^', '(',
    ')', ';', '=', '!', '?', '.', ',', ':', '_', '#', '@']

/-- Draws a piece. Of a hundred pieces 25 are identifiers, 13 integers, 8
decimals, 8 keywords, 6 strings, 5 line comments, 5 block comments and 30
operators. -/
def piece : Draw σ Piece := do
  let roll ← Draw.below word 100 (by decide)
  if roll.val < 25 then
    return .identifier (← Draw.someOf word letters (by decide) 1 8)
  else if roll.val < 38 then
    return .integer (← Draw.someOf word digits (by decide) 1 6)
  else if roll.val < 46 then
    let whole ← Draw.someOf word digits (by decide) 1 3
    let fraction ← Draw.someOf word digits (by decide) 1 8
    return .decimal whole fraction
  else if roll.val < 54 then
    return .keyword (← Draw.pick word Fos.keywords (by simp [Fos.keywords]))
  else if roll.val < 60 then
    return .string (← Draw.someOf word bodyChars (by decide) 0 12)
  else if roll.val < 65 then
    return .lineComment (← Draw.someOf word bodyChars (by decide) 0 20)
  else if roll.val < 70 then
    let body ← Draw.someOf word letters (by decide) 0 10
    let newline ← Draw.coin word
    return .blockComment body newline
  else
    return .operator (← Draw.pick word Fos.operators (by simp [Fos.operators]))

/-- Draws a gap. Of ten gaps six are spaces and two newlines. -/
def gap : Draw σ Gap := do
  let roll ← Draw.below word 10 (by decide)
  if roll.val < 6 then return .space
  else if roll.val < 8 then return .newline
  else if roll.val < 9 then return .tab
  else return .lineEnd

/-- The characters of a piece with the gap behind it. -/
def pairText (pair : Piece × Gap) : List Char :=
  pair.1.text ++ pair.2.text

theorem pairText_pos (pair : Piece × Gap) : 0 < (pairText pair).length := by
  have : 0 < pair.2.text.length := by cases pair.2 <;> simp [Gap.text]
  simp only [pairText, List.length_append]
  omega

/-- Draws pieces with gaps until `target` characters are written, on top of
those drawn already, latest first. -/
def sourceFrom (target written : Nat) (drawn : List (Piece × Gap)) (s : σ) :
    List (Piece × Gap) × σ :=
  if written < target then
    let p := piece word s
    let g := gap word p.2
    let pair := (p.1, g.1)
    sourceFrom target (written + (pairText pair).length) (pair :: drawn) g.2
  else (drawn.reverse, s)
termination_by target - written
decreasing_by
  have := pairText_pos ((piece word s).1, (gap word (piece word s).2).1)
  omega

/-- Draws pieces with gaps until `target` characters are written. -/
def source (target : Nat) : Draw σ (List (Piece × Gap)) :=
  sourceFrom word target 0 []

/-- The source that the pieces and gaps make up. -/
def text (pairs : List (Piece × Gap)) : String :=
  String.ofList (pairs.flatMap pairText)

end Sample

end Munch
