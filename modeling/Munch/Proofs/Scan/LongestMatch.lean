import Munch.Proofs.Bytes
import Munch.Proofs.Dfa.View
import Munch.Scan.LongestMatch

/-!
# What the longest match is

`Dfa.verdict` is the tag that a table gives to a whole text. `Dfa.munch` reads on
past accepted prefixes; `munch_cases` says that what it remembers in the end is
the longest non-empty prefix with a verdict.

The search reads characters, the table is made of bytes: `walkText?_eq_walk?`
says that reading a text is reading its bytes.
-/

namespace Munch

/-- A front whose characters are all of a class is no longer than the first run of the
class. -/
theorem length_le_takeWhile {u v : List Char} {p : Char → Bool} (hv : v <+: u)
    (h : ∀ c ∈ v, p c = true) : v.length ≤ (u.takeWhile p).length := by
  obtain ⟨rest, rfl⟩ := hv
  rw [List.takeWhile_append_of_pos h, List.length_append]
  exact Nat.le_add_right _ _

namespace Dfa

variable {d : Dfa}

/-- The state that a whole text leads to from `id`. -/
def walkText? (d : Dfa) (id : Nat) (cs : List Char) : Option Nat :=
  cs.foldlM d.stepChar id

/-- The tag of the state that a whole text leads to from `id`. -/
def verdictFrom (d : Dfa) (id : Nat) (cs : List Char) : Option Tag :=
  (d.walkText? id cs).bind d.acceptOf

/-- The tag that the table gives to a whole text. -/
def verdict (d : Dfa) (cs : List Char) : Option Tag :=
  d.verdictFrom d.start cs

/-! ## Characters and bytes -/

theorem walkText?_cons (d : Dfa) (id : Nat) (c : Char) (cs : List Char) :
    d.walkText? id (c :: cs) = (d.stepChar id c).bind fun target => d.walkText? target cs :=
  rfl

theorem next?_eq_none_of_no_column {id code : Nat} (h : Alphabet.index? code = none) :
    d.next? id code = none := by
  unfold next?
  split
  · rename_i hi
    rw [h] at hi
    cases hi
  · rfl

theorem next?_eq_none_of_not_ascii {id code : Nat} (h : 127 < code) : d.next? id code = none :=
  next?_eq_none_of_no_column ((Alphabet.index?_eq_none_iff code).mpr (.inr (by omega)))

theorem step_ofChar {c : Char} (hc : c.toNat ≤ 127) (id : Nat) :
    d.step id (Bytes.ofChar c) = d.stepChar id c := by
  rw [step, stepChar, Bytes.toNat_ofChar hc]

/-- The bytes of a character lead where the character leads. -/
theorem walk?_utf8EncodeChar (d : Dfa) (id : Nat) (c : Char) :
    d.walk? id (String.utf8EncodeChar c) = d.stepChar id c := by
  by_cases hc : c.toNat ≤ 127
  · rw [Bytes.utf8EncodeChar_of_ascii hc, ← step_ofChar hc]
    show (d.step id (Bytes.ofChar c)).bind some = d.step id (Bytes.ofChar c)
    exact Option.bind_fun_some _
  · -- neither the character nor its first byte has a column
    obtain ⟨b, bs, heq, hb⟩ := Bytes.utf8EncodeChar_of_not_ascii (Nat.lt_of_not_le hc)
    have hchar : d.stepChar id c = none := next?_eq_none_of_not_ascii (Nat.lt_of_not_le hc)
    have hbyte : d.step id b = none := next?_eq_none_of_not_ascii hb
    rw [heq, hchar, walk?, List.foldlM_cons, hbyte]
    rfl

theorem walkText?_eq_walk? (d : Dfa) (id : Nat) (cs : List Char) :
    d.walkText? id cs = d.walk? id (Bytes.ofChars cs) := by
  induction cs generalizing id with
  | nil => rfl
  | cons c cs ih =>
    rw [walkText?_cons, Bytes.ofChars_cons, walk?, List.foldlM_append]
    show _ = (d.walk? id (String.utf8EncodeChar c)).bind fun target =>
      d.walk? target (Bytes.ofChars cs)
    rw [walk?_utf8EncodeChar]
    simp only [ih]

/-! ## The search -/

theorem verdictFrom_cons {id target : Nat} {c : Char} (h : d.stepChar id c = some target)
    (cs : List Char) : d.verdictFrom id (c :: cs) = d.verdictFrom target cs := by
  rw [verdictFrom, walkText?_cons, h]
  rfl

theorem verdictFrom_cons_of_none {id : Nat} {c : Char} (h : d.stepChar id c = none)
    (cs : List Char) : d.verdictFrom id (c :: cs) = none := by
  rw [verdictFrom, walkText?_cons, h]
  rfl

/-- No prefix that is longer than `k` has a verdict. -/
def SilentBeyond (d : Dfa) (id : Nat) (cs : List Char) (k : Nat) : Prop :=
  ∀ v, v <+: cs → k < v.length → d.verdictFrom id v = none

/-- Prefixes beyond the first character are read from where it leads. -/
theorem SilentBeyond.cons {id target k : Nat} {c : Char} {cs : List Char}
    (hstep : d.stepChar id c = some target) (h : d.SilentBeyond target cs k) :
    d.SilentBeyond id (c :: cs) (k + 1) := by
  intro v hv hlen
  cases v with
  | nil => exact absurd hlen (Nat.not_lt_zero _)
  | cons c' v =>
    obtain ⟨rfl, hv'⟩ := List.cons_prefix_cons.mp hv
    rw [verdictFrom_cons hstep]
    exact h v hv' (Nat.lt_of_succ_lt_succ hlen)

/-- The search from a state: either no prefix has a verdict and what is best stays
so, or the longest one that has is found. -/
theorem munchFrom_cases (d : Dfa) (cs : List Char) (id count : Nat)
    (best : Option (Nat × Tag)) :
    (d.munchFrom id count best cs = best ∧ d.SilentBeyond id cs 0) ∨
      ∃ v tag, v <+: cs ∧ v ≠ [] ∧ d.munchFrom id count best cs = some (count + v.length, tag) ∧
        d.verdictFrom id v = some tag ∧ d.SilentBeyond id cs v.length := by
  -- `best` changes from step to step, so it is general in the induction
  induction cs generalizing id count best with
  | nil =>
    refine .inl ⟨rfl, fun v hv hlen => ?_⟩
    rw [List.prefix_nil.mp hv] at hlen
    exact absurd hlen (Nat.lt_irrefl 0)
  | cons c cs ih =>
    rw [munchFrom]
    cases hstep : d.stepChar id c with
    | none =>
      refine .inl ⟨rfl, fun v hv hlen => ?_⟩
      cases v with
      | nil => exact absurd hlen (Nat.lt_irrefl 0)
      | cons c' v =>
        rw [(List.cons_prefix_cons.mp hv).1]
        exact verdictFrom_cons_of_none hstep v
    | some target =>
      have hone : d.verdictFrom id [c] = d.acceptOf target := verdictFrom_cons hstep []
      rcases ih target (count + 1) (((d.acceptOf target).map fun tag => (count + 1, tag)).or best)
        with ⟨hmunch, hsilent⟩ | ⟨v, tag, hv, _, hmunch, hverdict, hsilent⟩
      · simp only [hmunch]
        -- nothing longer has a verdict, so the first character alone decides
        cases haccept : d.acceptOf target with
        | none =>
          refine .inl ⟨rfl, fun v hv hlen => ?_⟩
          by_cases hlong : 1 < v.length
          · exact hsilent.cons hstep v hv hlong
          · obtain ⟨c', rfl⟩ := List.length_eq_one_iff.mp (show v.length = 1 by omega)
            rw [(List.cons_prefix_cons.mp hv).1, hone, haccept]
        | some tag =>
          refine .inr ⟨[c], tag, List.cons_prefix_cons.mpr ⟨rfl, List.nil_prefix⟩, by simp, rfl, ?_,
            hsilent.cons hstep⟩
          rw [hone, haccept]
      · refine .inr ⟨c :: v, tag, List.cons_prefix_cons.mpr ⟨rfl, hv⟩, by simp, ?_, ?_,
          hsilent.cons hstep⟩
        · simp only [hmunch, List.length_cons]
          rw [Nat.add_assoc, Nat.add_comm 1]
        · rw [verdictFrom_cons hstep]
          exact hverdict

/-- Either no prefix has a verdict, or the longest one that has is found. -/
theorem munch_cases (d : Dfa) (cs : List Char) :
    (d.munch cs = none ∧ d.SilentBeyond d.start cs 0) ∨
      ∃ v tag, v <+: cs ∧ v ≠ [] ∧ d.munch cs = some (v.length, tag) ∧
        d.verdict v = some tag ∧ d.SilentBeyond d.start cs v.length := by
  have h := d.munchFrom_cases cs d.start 0 none
  simp only [Nat.zero_add] at h
  exact h

end Dfa

end Munch
