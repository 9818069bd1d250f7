import Munch.Dfa.Basic

/-!
# Longest match

`Dfa.munch` reads a text from the start of a table for as long as there are
edges and reports the longest prefix that ended in an accepting state, with the
tag of that state. The empty prefix is never reported.
-/

namespace Munch.Dfa

/-- Reads on from a state after `count` characters. `best` is the longest
accepted prefix so far. -/
def munchFrom (d : Dfa) (id count : Nat) (best : Option (Nat × Tag)) :
    List Char → Option (Nat × Tag)
  | [] => best
  | c :: cs =>
    match d.stepChar id c with
    | none => best
    | some target =>
      d.munchFrom target (count + 1)
        (((d.acceptOf target).map fun tag => (count + 1, tag)).or best) cs

/-- The length and tag of the longest accepted non-empty prefix. -/
def munch (d : Dfa) (cs : List Char) : Option (Nat × Tag) :=
  d.munchFrom d.start 0 none cs

theorem munchFrom_pos (d : Dfa) (cs : List Char) (id count : Nat) (best : Option (Nat × Tag))
    (hbest : ∀ m ∈ best, 0 < m.1) : ∀ m ∈ d.munchFrom id count best cs, 0 < m.1 := by
  induction cs generalizing id count best with
  | nil => exact hbest
  | cons c cs ih =>
    unfold munchFrom
    split
    · exact hbest
    · apply ih
      intro m hm
      simp only [Option.mem_def, Option.or_eq_some_iff, Option.map_eq_some_iff] at hm
      rcases hm with ⟨tag, _, rfl⟩ | ⟨_, hm⟩
      · exact Nat.succ_pos count
      · exact hbest m hm

/-- A match is never empty. -/
theorem munch_pos {d : Dfa} {cs : List Char} {k : Nat} {tag : Tag}
    (h : d.munch cs = some (k, tag)) : 0 < k :=
  d.munchFrom_pos cs d.start 0 none (by simp) (k, tag) h

end Munch.Dfa
