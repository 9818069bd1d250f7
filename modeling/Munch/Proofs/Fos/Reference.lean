import Mathlib.Data.List.TakeWhile
import Munch.Fos

/-!
# A direct lexer for FOS

`Reference.items` reads FOS source by hand, without expressions, automata or
tables. It looks at the first character of the text that is left: blanks and
comments are dropped; a quote begins a string if there is a second one before
anything unprintable; letters and digits form a run, which may be the whole part
of a decimal literal, a keyword, a name or a whole number; any other character
is an operator or an unknown symbol.
-/

namespace Munch.Fos.Reference

/-- The line and the text behind the first `*/`. -/
def afterBlock? (line : Nat) : List Char → Option (Nat × List Char)
  | '*' :: '/' :: rest => some (line, rest)
  | c :: cs => afterBlock? (if c = '\n' then line + 1 else line) cs
  | [] => none

/-- What may stand between the quotes of a string: printable ASCII, but no
quote. -/
def isQuotable (c : Char) : Bool :=
  32 ≤ c.toNat && c.toNat ≤ 126 && c ≠ '"'

/-- The string that a text begins with, quotes included, and what follows it. -/
def string? : List Char → Option (List Char × List Char)
  | '"' :: cs =>
    match cs.dropWhile isQuotable with
    | '"' :: rest => some ('"' :: (cs.takeWhile isQuotable ++ ['"']), rest)
    | _ => none
  | _ => none

/-- The decimal literal that a text begins with, and what follows it: the first
run of letters and digits must be all digits, with a point and a digit behind. -/
def decimal? (u : List Char) : Option (List Char × List Char) :=
  let whole := u.takeWhile Char.isAlphanum
  match u.dropWhile Char.isAlphanum with
  | '.' :: rest =>
    let fraction := rest.takeWhile Char.isDigit
    if whole.all Char.isDigit ∧ fraction ≠ [] then
      some (whole ++ '.' :: fraction, rest.dropWhile Char.isDigit)
    else none
  | _ => none

/-- What a run of letters and digits is. -/
def run (line : Nat) (text : List Char) : Item :=
  match keywords.find? (·.text = String.ofList text) with
  | some t => .token ⟨t.name, t.text, line⟩
  | none =>
    if text.all Char.isLower then .token ⟨Kind.identifier, String.ofList text, line⟩
    else if text.all Char.isDigit then .token ⟨Kind.intLiteral, String.ofList text, line⟩
    else .diagnostic (.invalidIdentifier line (String.ofList text))

/-- The item of a text that begins with `c`, no blank and no comment, and what
follows it. -/
def item (line : Nat) (c : Char) (cs : List Char) : Item × List Char :=
  match string? (c :: cs) with
  | some (lexeme, rest) => (.token ⟨stringKind, String.ofList lexeme, line⟩, rest)
  | none =>
    if c.isAlphanum then
      match decimal? (c :: cs) with
      | some (lexeme, rest) =>
        let rounded := (Decimal.round? lexeme 5).getD []
        (.token ⟨Kind.decimalLiteral, String.ofList rounded, line⟩, rest)
      | none =>
        (run line ((c :: cs).takeWhile Char.isAlphanum), (c :: cs).dropWhile Char.isAlphanum)
    else
      match operators.find? (·.text = String.singleton c) with
      | some t => (.token ⟨t.name, t.text, line⟩, cs)
      | none => (.diagnostic (.unrecognizedSymbol line c), cs)

/-! ## Each step makes the text shorter -/

theorem length_afterBlock?_lt {line line' : Nat} {cs rest : List Char}
    (h : afterBlock? line cs = some (line', rest)) : rest.length < cs.length := by
  fun_induction afterBlock? line cs with
  | case1 line rest' =>
    obtain ⟨_, rfl⟩ := Prod.mk.inj (Option.some.inj h)
    simp only [List.length_cons]
    omega
  | case2 line c cs _ ih =>
    have := ih h
    simp only [List.length_cons]
    omega
  | case3 => cases h

theorem append_of_string? {u lexeme rest : List Char} (h : string? u = some (lexeme, rest)) :
    lexeme ++ rest = u ∧ lexeme ≠ [] := by
  unfold string? at h
  split at h
  · rename_i cs
    split at h
    · rename_i rest' hdrop
      obtain ⟨rfl, rfl⟩ := Prod.mk.inj (Option.some.inj h)
      have hcs : cs.takeWhile isQuotable ++ '"' :: rest' = cs := by
        rw [← hdrop]
        exact List.takeWhile_append_dropWhile
      refine ⟨?_, List.cons_ne_nil _ _⟩
      rw [List.cons_append, List.append_assoc, List.singleton_append, hcs]
    · cases h
  · cases h

theorem append_of_decimal? {u lexeme rest : List Char} (h : decimal? u = some (lexeme, rest)) :
    lexeme ++ rest = u ∧ lexeme ≠ [] := by
  unfold decimal? at h
  simp only at h
  split at h
  · rename_i rest' hdrop
    split at h
    · obtain ⟨rfl, rfl⟩ := Prod.mk.inj (Option.some.inj h)
      have hu : u.takeWhile Char.isAlphanum ++ '.' :: rest' = u := by
        rw [← hdrop]
        exact List.takeWhile_append_dropWhile
      refine ⟨?_, by simp⟩
      rw [List.append_assoc, List.cons_append, List.takeWhile_append_dropWhile, hu]
    · cases h
  · cases h

theorem length_item_le (line : Nat) (c : Char) (cs : List Char) :
    (item line c cs).2.length ≤ cs.length := by
  have shorter : ∀ {lexeme rest : List Char}, lexeme ++ rest = c :: cs → lexeme ≠ [] →
      rest.length ≤ cs.length := by
    intro lexeme rest heq hne
    have hlen := congrArg List.length heq
    have := List.length_pos_iff.mpr hne
    simp only [List.length_append, List.length_cons] at hlen
    omega
  unfold item
  split
  · rename_i lexeme rest h
    exact shorter (append_of_string? h).1 (append_of_string? h).2
  · split
    · rename_i halnum
      split
      · rename_i lexeme rest h
        exact shorter (append_of_decimal? h).1 (append_of_decimal? h).2
      · simp only [List.dropWhile_cons, halnum, if_true]
        exact List.length_dropWhile_le _ _
    · split <;> exact Nat.le_refl _

/-- The items of a text that starts on the given line. -/
def items (line : Nat) : List Char → List Item
  | [] => []
  | '/' :: '*' :: body =>
    match _h : afterBlock? line body with
    | none => [.diagnostic (.unterminatedComment line)]
    | some (line', rest) => items line' rest
  | '/' :: '/' :: body => items line (body.dropWhile (· ≠ '\n'))
  | c :: cs =>
    if Trivia.isBlank c then items (if c = '\n' then line + 1 else line) cs
    else
      let found := item line c cs
      found.1 :: items line found.2
termination_by u => u.length
decreasing_by
  · have := length_afterBlock?_lt _h
    simp only [List.length_cons]
    omega
  · have := body.length_dropWhile_le (· ≠ '\n')
    simp only [List.length_cons]
    omega
  · simp
  · have := length_item_le line c cs
    simp only [List.length_cons]
    omega

end Munch.Fos.Reference
