import Munch.Nfa.Patterns
import Munch.Proofs.Nfa.Expression

/-!
# Expressions of the common classes

`Build.Builds` ties an action on arenas to the expression whose fragment it adds.
It is closed under sequencing, so the expression of a composed class is read off
its program: `Pattern.builds_stringLiteral` and its companions.
-/

namespace Munch

open Expression

namespace Build

/-- On top of whatever is there, the action adds the fragment of the expression. -/
def Builds (act : Build Fragment) (r : Expression) : Prop :=
  ∀ base n ps, Assembles base n ps →
    Assembles base (act.run n).2 ((r, (act.run n).1) :: ps)

variable {x y z : Build Fragment} {r s t : Expression}

theorem Builds.assembles (h : Builds x r) (n : Nfa) :
    Assembles n (x.run n).2 [(r, (x.run n).1)] :=
  h n n [] .start

theorem builds_literal (b : UInt8) : Builds (literal b) (.atom (.literal b)) :=
  fun _ _ _ h => h.atom (.literal b) rfl

theorem builds_text (bs : List UInt8) (hne : bs ≠ []) :
    Builds (text bs hne) (.atom (.text bs hne)) :=
  fun _ n _ h => h.atom (.text bs hne) (run_text? hne n)

theorem builds_range {lo hi : UInt8} (hle : lo ≤ hi) (hne : Bytes.range lo hi ≠ []) :
    Builds (oneOf (Bytes.range lo hi) hne) (.atom (.range lo hi hle)) :=
  fun _ n _ h => h.atom (.range lo hi hle) (run_oneOf? hne n)

theorem builds_anyExcept (b : UInt8) (hne : symbolsExcept b ≠ []) :
    Builds (oneOf (symbolsExcept b) hne) (.atom (.anyExcept b)) :=
  fun _ n _ h => h.atom (.anyExcept b) (run_oneOf? hne n)

theorem builds_anyChar : Builds anyChar (.atom .anyChar) :=
  fun _ n _ h => h.atom .anyChar (run_map_some anyChar n)

theorem Builds.star (h : Builds x r) : Builds (x >>= Build.star) r.star :=
  fun base n ps hn => (h base n ps hn).star

theorem Builds.plus (h : Builds x r) : Builds (x >>= Build.plus) r.plus :=
  fun base n ps hn => (h base n ps hn).plus

theorem Builds.pair (hx : Builds x r) (hy : Builds y s) :
    Builds (do
      let a ← x
      let b ← y
      Build.concat a b) (r.concat s) := by
  intro base n ps hn
  exact ((hy _ _ _ (hx base n ps hn)).reorder (.swap _ _ ps)).concat

theorem Builds.concat (hx : Builds x r) (hy : Builds y s) (hz : Builds z t) :
    Builds (do
      let a ← x
      let b ← y
      let c ← z
      Build.concat (← Build.concat a b) c) ((r.concat s).concat t) := by
  intro base n ps hn
  have hparts := hz _ _ _ (hy _ _ _ (hx base n ps hn))
  -- the fragments lie in the order in which they were built, the last one in front
  exact (hparts.reorder ((List.reverse_perm [_, _, _]).symm.append_right ps)).concat.concat

theorem Builds.union (hx : Builds x r) (hy : Builds y s) (hz : Builds z t) :
    Builds (do
      let a ← x
      let b ← y
      let c ← z
      Build.union (← Build.union a b) c) ((r.union s).union t) := by
  intro base n ps hn
  have hparts := hz _ _ _ (hy _ _ _ (hx base n ps hn))
  exact (hparts.reorder ((List.reverse_perm [_, _, _]).symm.append_right ps)).union.union

end Build

namespace Pattern

open Build

theorem slashes_ne_nil : ([47, 47] : List UInt8) ≠ [] := by decide

theorem opener_ne_nil : ([47, 42] : List UInt8) ≠ [] := by decide

theorem closer_ne_nil : ([42, 47] : List UInt8) ≠ [] := by decide

/-- Two slashes and printable symbols. -/
def lineExpression : Expression :=
  .concat (.atom (.text [47, 47] slashes_ne_nil)) (.star (.atom (.anyExcept 10)))

/-- The opening mark, printable symbols or newlines, and the closing mark. -/
def blockExpression : Expression :=
  .concat (.concat (.atom (.text [47, 42] opener_ne_nil)) (.star (.atom .anyChar)))
    (.atom (.text [42, 47] closer_ne_nil))

/-- A quote, printable symbols other than the quote, and a quote. -/
def stringExpression : Expression :=
  .concat (.concat (.atom (.literal 34)) (.star (.atom (.anyExcept 34)))) (.atom (.literal 34))

/-- One digit. -/
def digitExpression : Expression :=
  .atom (.range 48 57 (by decide))

/-- Digits, a point, digits. -/
def decimalExpression : Expression :=
  .concat (.concat (.plus digitExpression) (.atom (.literal 46))) (.plus digitExpression)

/-- One or more letters or digits. -/
def runExpression : Expression :=
  .plus (.union (.union (.atom (.range 97 122 (by decide))) (.atom (.range 65 90 (by decide))))
    digitExpression)

theorem builds_lineComment : Builds lineComment lineExpression := by
  have hbody := (builds_anyExcept 10 (symbolsExcept_ne_nil 10)).star
  have hall : Builds _ lineExpression := (builds_text [47, 47] (by decide)).pair hbody
  rw [lineComment]
  simpa only [bind_assoc] using hall

theorem builds_blockComment : Builds blockComment blockExpression := by
  have hall : Builds _ blockExpression :=
    (builds_text [47, 42] (by decide)).concat builds_anyChar.star (builds_text [42, 47] (by decide))
  rw [blockComment]
  simpa only [bind_assoc] using hall

theorem builds_stringLiteral : Builds stringLiteral stringExpression := by
  have hbody := (builds_anyExcept 34 (symbolsExcept_ne_nil 34)).star
  have hall : Builds _ stringExpression := (builds_literal 34).concat hbody (builds_literal 34)
  rw [stringLiteral]
  simpa only [bind_assoc] using hall

theorem builds_digit : Builds digit digitExpression :=
  builds_range _ _

theorem builds_decimalLiteral : Builds decimalLiteral decimalExpression := by
  have hall : Builds _ decimalExpression :=
    builds_digit.plus.concat (builds_literal 46) builds_digit.plus
  rw [decimalLiteral]
  simpa only [bind_assoc] using hall

theorem builds_alphanumeric : Builds alphanumeric runExpression := by
  have hlower : Builds (oneOf lowers (by decide)) (.atom (.range 97 122 (by decide))) :=
    builds_range _ _
  have hupper : Builds (oneOf uppers (by decide)) (.atom (.range 65 90 (by decide))) :=
    builds_range _ _
  have hall : Builds _ runExpression := (hlower.union hupper builds_digit).plus
  rw [alphanumeric]
  simpa only [bind_assoc] using hall

end Pattern

end Munch
