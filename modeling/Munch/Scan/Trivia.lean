/-!
# Blanks and comments

Between tokens stand blanks, block comments from `/*` to the first `*/` after
it, and line comments from `//` up to the newline, which they leave in place.
`Trivia.length?` measures the one that a text begins with, and `Trivia.skip`
drops as many as there are and counts their newlines. A block comment without
end is no trivia: skipping stops in front of it.
-/

namespace Munch.Trivia

/-- The blanks: the space, the codes 9 to 13 (tab, newline, vertical tab, form
feed, carriage return) and the separators 28 to 31. -/
def isBlank (c : Char) : Bool :=
  c = ' ' || (9 ≤ c.toNat && c.toNat ≤ 13) || (28 ≤ c.toNat && c.toNat ≤ 31)

/-- Whether a text begins with the opener of a block comment. -/
def opensBlock : List Char → Bool
  | '/' :: '*' :: _ => true
  | _ => false

/-- The number of characters through the first `*/`, on top of `passed`. -/
def closeAt? (passed : Nat) : List Char → Option Nat
  | '*' :: '/' :: _ => some (passed + 2)
  | _ :: cs => closeAt? (passed + 1) cs
  | [] => none

/-- The length of the blank or comment that a text begins with. -/
def length? : List Char → Option Nat
  | '/' :: '*' :: body => closeAt? 2 body
  | '/' :: '/' :: body => some (2 + (body.takeWhile (· ≠ '\n')).length)
  | c :: _ => if isBlank c then some 1 else none
  | [] => none

theorem le_of_closeAt? {passed k : Nat} {cs : List Char} (h : closeAt? passed cs = some k) :
    passed + 2 ≤ k := by
  fun_induction closeAt? passed cs with
  | case1 => simp_all
  | case2 _ _ _ _ ih => have := ih h; omega
  | case3 => simp at h

/-- Trivia are never empty. -/
theorem length?_pos {cs : List Char} {k : Nat} (h : length? cs = some k) :
    0 < k ∧ cs ≠ [] := by
  unfold length? at h
  split at h
  · exact ⟨by have := le_of_closeAt? h; omega, by simp⟩
  · simp only [Option.some.injEq] at h
    exact ⟨by omega, by simp⟩
  · simp only [Option.ite_none_right_eq_some, Option.some.injEq] at h
    exact ⟨by omega, by simp⟩
  · simp at h

/-- Drops all trivia that a text begins with and counts lines on the way. -/
def skip (line : Nat) (cs : List Char) : Nat × List Char :=
  match _h : length? cs with
  | none => (line, cs)
  | some k => skip (line + (cs.take k).count '\n') (cs.drop k)
termination_by cs.length
decreasing_by
  have ⟨hk, hcs⟩ := length?_pos _h
  have := List.length_pos_iff.mpr hcs
  simp only [List.length_drop]
  omega

theorem length_skip_le (line : Nat) (cs : List Char) : (skip line cs).2.length ≤ cs.length := by
  fun_induction skip line cs with
  | case1 => exact Nat.le_refl _
  | case2 line cs k h ih =>
    simp only [List.length_drop] at ih
    omega

end Munch.Trivia
