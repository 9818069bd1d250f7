import Munch.Proofs.Nfa.Assembly

/-!
# Regular expressions over the fragment operators

An `Expression` is a tree of fragment operators, and its language is read off
the tree alone. `Expression.Assembles` says how trees come to be fragments: atoms
are built and operators applied in any order, several trees at a time, and each
fragment is used by one operator at most.

`Assembles.assembled` is the invariant of this work and holds by induction over
its steps. What it says about the fragment of a tree: the fragment accepts
exactly the words of the tree, and its exit has no edges.
-/

namespace Munch

/-- The smallest expressions. -/
inductive Atom where
  /-- One byte. -/
  | literal (b : UInt8)
  /-- One word, not the empty one. -/
  | text (bs : List UInt8) (ne : bs ≠ [])
  /-- Any one of some bytes. -/
  | oneOf (bs : List UInt8) (ne : bs ≠ [])
  /-- Any one byte of a range. -/
  | range (lo hi : UInt8) (le : lo ≤ hi)
  /-- Any printable symbol but one. -/
  | anyExcept (b : UInt8)
  /-- Any printable symbol, or the newline. -/
  | anyChar

namespace Atom

/-- The words of an atom. -/
def language : Atom → Language UInt8
  | literal b => {[b]}
  | text bs _ => {bs}
  | oneOf bs _ => {w | ∃ b ∈ bs, w = [b]}
  | range lo hi _ => {w | ∃ b, lo ≤ b ∧ b ≤ hi ∧ w = [b]}
  | anyExcept b => {w | ∃ c : UInt8, 32 ≤ c.toNat ∧ c.toNat ≤ 126 ∧ c ≠ b ∧ w = [c]}
  | anyChar => {w | ∃ c : UInt8, (32 ≤ c.toNat ∧ c.toNat ≤ 126 ∨ c = 10) ∧ w = [c]}

/-- The operator that builds an atom. -/
def build? : Atom → Build (Option Fragment)
  | literal b => some <$> Build.literal b
  | text bs _ => Build.text? bs
  | oneOf bs _ => Build.oneOf? bs
  | range lo hi _ => Build.range? lo hi
  | anyExcept b => Build.anyExcept? b
  | anyChar => some <$> Build.anyChar

end Atom

/-- A regular expression. -/
inductive Expression where
  | atom (a : Atom)
  | concat (r s : Expression)
  | union (r s : Expression)
  | star (r : Expression)
  | plus (r : Expression)

namespace Expression

/-- The words of an expression. -/
def language : Expression → Language UInt8
  | atom a => a.language
  | concat r s => r.language * s.language
  | union r s => r.language + s.language
  | star r => KStar.kstar r.language
  | plus r => r.language * KStar.kstar r.language

/-- Fragments of expressions in an arena that was grown from `base`. The list
holds those that no operator has used yet; an operator uses up those it takes. -/
inductive Assembles (base : Nfa) : Nfa → List (Expression × Fragment) → Prop
  | start : Assembles base base []
  | atom {n n' : Nfa} {ps : List (Expression × Fragment)} {f : Fragment} (a : Atom) :
      Assembles base n ps → a.build?.run n = (some f, n') →
      Assembles base n' ((.atom a, f) :: ps)
  | concat {n : Nfa} {r s : Expression} {p q : Fragment} {ps : List (Expression × Fragment)} :
      Assembles base n ((r, p) :: (s, q) :: ps) →
      Assembles base ((Build.concat p q).run n).2 ((r.concat s, ((Build.concat p q).run n).1) :: ps)
  | union {n : Nfa} {r s : Expression} {p q : Fragment} {ps : List (Expression × Fragment)} :
      Assembles base n ((r, p) :: (s, q) :: ps) →
      Assembles base ((Build.union p q).run n).2 ((r.union s, ((Build.union p q).run n).1) :: ps)
  | star {n : Nfa} {r : Expression} {p : Fragment} {ps : List (Expression × Fragment)} :
      Assembles base n ((r, p) :: ps) →
      Assembles base ((Build.star p).run n).2 ((r.star, ((Build.star p).run n).1) :: ps)
  | plus {n : Nfa} {r : Expression} {p : Fragment} {ps : List (Expression × Fragment)} :
      Assembles base n ((r, p) :: ps) →
      Assembles base ((Build.plus p).run n).2 ((r.plus, ((Build.plus p).run n).1) :: ps)
  | reorder {n : Nfa} {ps qs : List (Expression × Fragment)} :
      Assembles base n ps → ps.Perm qs → Assembles base n qs

end Expression

/-! ## Atoms -/

namespace Bytes

theorem mem_range {lo hi b : UInt8} : b ∈ range lo hi ↔ lo ≤ b ∧ b ≤ hi := by
  rw [range, List.mem_map, UInt8.le_iff_toNat_le, UInt8.le_iff_toNat_le]
  constructor
  · rintro ⟨k, hk, rfl⟩
    rw [List.mem_range'_1] at hk
    have hhi := hi.toNat_lt
    rw [UInt8.toNat_ofNat']
    omega
  · intro h
    refine ⟨b.toNat, List.mem_range'_1.mpr (by omega), UInt8.ofNat_toNat⟩

end Bytes

namespace Build

theorem mem_symbolsExcept {b c : UInt8} :
    c ∈ symbolsExcept b ↔ 32 ≤ c.toNat ∧ c.toNat ≤ 126 ∧ c ≠ b := by
  rw [symbolsExcept, List.mem_filter, Alphabet.mem_symbols, decide_eq_true_iff, and_assoc]

/-- There is always a symbol left. -/
theorem symbolsExcept_ne_nil (b : UInt8) : symbolsExcept b ≠ [] := by
  by_cases h : b = 32
  · exact List.ne_nil_of_mem (a := 33) (mem_symbolsExcept.mpr ⟨by decide, by decide, by simp [h]⟩)
  · exact List.ne_nil_of_mem (a := 32)
      (mem_symbolsExcept.mpr ⟨by decide, by decide, fun heq => h heq.symm⟩)

theorem run_map_some (act : Build Fragment) (n : Nfa) :
    (some <$> act).run n = (some (act.run n).1, (act.run n).2) :=
  rfl

theorem run_oneOf? {bs : List UInt8} (h : bs ≠ []) (n : Nfa) :
    (oneOf? bs).run n = (some ((oneOf bs h).run n).1, ((oneOf bs h).run n).2) := by
  unfold oneOf?
  rw [dif_neg h]
  exact run_map_some _ n

theorem run_text? {bs : List UInt8} (h : bs ≠ []) (n : Nfa) :
    (text? bs).run n = (some ((text bs h).run n).1, ((text bs h).run n).2) := by
  unfold text?
  rw [dif_neg h]
  exact run_map_some _ n

end Build

namespace Atom

open Nfa

/-- Building an atom yields a fragment, and it stands for the atom. -/
theorem build?_assembled (a : Atom) {base n : Nfa} {ps : List Piece}
    (h : Assembled base n ps) :
    ∃ f n', a.build?.run n = (some f, n') ∧ Assembled base n' ((a.language, f) :: ps) := by
  cases a with
  | literal b => exact ⟨_, _, Build.run_map_some _ n, h.literal b⟩
  | text bs hbs => exact ⟨_, _, Build.run_text? hbs n, h.text bs hbs⟩
  | oneOf bs hbs => exact ⟨_, _, Build.run_oneOf? hbs n, h.oneOf bs hbs⟩
  | range lo hi hle =>
    have hne : Bytes.range lo hi ≠ [] :=
      List.ne_nil_of_mem (Bytes.mem_range.mpr ⟨UInt8.le_refl lo, hle⟩)
    refine ⟨_, _, Build.run_oneOf? hne n, ?_⟩
    have hlang : (range lo hi hle).language = oneByte (Bytes.range lo hi) := by
      ext w
      simp only [language, mem_oneByte, Bytes.mem_range, and_assoc]
      rfl
    rw [hlang]
    exact h.oneOf _ hne
  | anyExcept b =>
    refine ⟨_, _, Build.run_oneOf? (Build.symbolsExcept_ne_nil b) n, ?_⟩
    have hlang : (anyExcept b).language = oneByte (Build.symbolsExcept b) := by
      ext w
      simp only [language, mem_oneByte, Build.mem_symbolsExcept, and_assoc]
      rfl
    rw [hlang]
    exact h.oneOf _ _
  | anyChar =>
    refine ⟨_, _, Build.run_map_some _ n, ?_⟩
    have hlang : anyChar.language = oneByte (Alphabet.symbols ++ [10]) := by
      ext w
      simp only [language, mem_oneByte, List.mem_append, Alphabet.mem_symbols, List.mem_singleton]
      rfl
    rw [hlang]
    exact h.anyChar

end Atom

/-! ## Trees -/

namespace Expression

open Nfa

/-- A fragment of an expression as a piece of an arena. -/
def piece (p : Expression × Fragment) : Piece :=
  (p.1.language, p.2)

/-- Every step of the work keeps the pieces apart and true to their trees. -/
theorem Assembles.assembled {base n : Nfa} {ps : List (Expression × Fragment)}
    (h : Assembles base n ps) : Assembled base n (ps.map piece) := by
  induction h with
  | start => exact .start base
  | @atom n n' ps f a _ hbuild ih =>
    -- building is a function, so the fragment at hand is the one that stands for the atom
    obtain ⟨g, m, hg, hm⟩ := a.build?_assembled ih
    obtain ⟨hfg, rfl⟩ := Prod.mk.inj (hg.symm.trans hbuild)
    obtain rfl := Option.some.inj hfg
    exact hm
  | concat _ ih => exact ih.concat
  | union _ ih => exact ih.union
  | star _ ih => exact ih.star
  | plus _ ih => exact ih.plus
  | reorder _ hperm ih => exact ih.reorder (hperm.map piece)

/-- The fragment of a tree accepts exactly the words of the tree, wherever and in
whatever order it was built, its exit is there and has no edges, and one more
atom can always be built. -/
theorem accepts?_of_assembles {base n : Nfa} {ps : List (Expression × Fragment)}
    (hbase : base.Closed) (h : Assembles base n ps) {r : Expression} {f : Fragment}
    (hf : (r, f) ∈ ps) :
    (∀ s : String, ∃ found, n.accepts? f (Bytes.ofText s) = some found ∧
      (found = true ↔ Bytes.ofText s ∈ r.language)) ∧
    (∃ exit, n.state? f.accept = some exit ∧ exit.edges = [] ∧ exit.epsilon = []) ∧
    ∀ a : Atom, ∃ g n', a.build?.run n = (some g, n') := by
  have hall := h.assembled
  have hden : n.Denotes f r.language := hall.denotes _ (List.mem_map_of_mem hf)
  refine ⟨fun s => ?_, ?_, fun a => ?_⟩
  · refine ⟨n.accepts f (Bytes.ofText s), ?_, hden.accepts_iff _⟩
    exact (hall.closed hbase).accepts?_eq_accepts hden.start_lt _
  · obtain ⟨exit, hexit⟩ := exists_state? hden.accept_lt
    have hedge := hden.no_edge
    have heps := hden.no_epsilon
    rw [edgesOf, hexit] at hedge
    rw [epsilonOf, hexit] at heps
    exact ⟨exit, hexit, hedge, heps⟩
  · obtain ⟨g, n', hg, _⟩ := a.build?_assembled hall
    exact ⟨g, n', hg⟩

/-- One or more times `ab`, in an arena that holds a loop already. -/
theorem accepts?_of_assembles_abab : ∃ n f,
    Assembles ⟨#[{ edges := [(97, 0)] }]⟩ n
      [(((atom (.literal 97)).concat (atom (.literal 98))).plus, f)] ∧
    n.accepts? f (Bytes.ofText "abab") = some true := by
  have hstart : Assembles ⟨#[{ edges := [(97, 0)] }]⟩ ⟨#[{ edges := [(97, 0)] }]⟩ [] := .start
  -- the second letter is built first
  have hplus := ((hstart.atom (.literal 98) rfl).atom (.literal 97) rfl).concat.plus
  obtain ⟨hwords, _⟩ := accepts?_of_assembles (by decide) hplus List.mem_cons_self
  obtain ⟨found, hfound, hiff⟩ := hwords "abab"
  have hab : [97, 98] ∈ ((atom (.literal 97)).concat (atom (.literal 98))).language :=
    Language.append_mem_mul (a := [97]) (b := [98]) rfl rfl
  have hmem : [97, 98] ++ [97, 98] ∈
      (((atom (.literal 97)).concat (atom (.literal 98))).plus).language :=
    Language.append_mem_mul hab (Language.mem_kstar.mpr ⟨[[97, 98]], rfl, by simpa using hab⟩)
  have htext : Bytes.ofText "abab" = [97, 98] ++ [97, 98] := by decide
  rw [hiff.mpr (htext ▸ hmem)] at hfound
  exact ⟨_, _, hplus, hfound⟩

end Expression

end Munch
