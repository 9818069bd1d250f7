import Mathlib.Computability.EpsilonNFA
import Munch.Proofs.Nfa.Matching

/-!
# A fragment as an automaton

A fragment of an arena is an automaton with ε-edges (`Nfa.automaton`): it starts at the
entry and accepts at the exit, and its edges are those of the arena. A finite path of
this automaton is given by the list of its labels, `none` for an ε-edge; what the list
spells is the word that is left without them.

`accepts?_decides_paths` says that the simulation, which keeps sets of states and never a
path, finds out whether such a path exists. Cycles of ε-edges make for arbitrarily long
paths over one word; `path_iff_isPath` counts them all, and `mem_run` has the sets agree
with them byte by byte.
-/

namespace Munch.Nfa

variable {n : Nfa} {f : Fragment}

/-- The automaton of a fragment, over all names; a missing state has no edges. -/
def automaton (n : Nfa) (f : Fragment) : εNFA UInt8 Nat where
  step q label := match label with
    | none => {target | target ∈ n.epsilonOf q}
    | some b => {target | (b, target) ∈ n.edgesOf q}
  start := {f.start}
  accept := {f.accept}

@[simp] theorem mem_step_none {p q : Nat} :
    q ∈ (n.automaton f).step p none ↔ q ∈ n.epsilonOf p :=
  Iff.rfl

@[simp] theorem mem_step_some {p q : Nat} {b : UInt8} :
    q ∈ (n.automaton f).step p (some b) ↔ (b, q) ∈ n.edgesOf p :=
  Iff.rfl

theorem Path.exists_isPath {p q : Nat} {w : List UInt8} (h : n.Path p w q) :
    ∃ labels, labels.reduceOption = w ∧ (n.automaton f).IsPath p q labels := by
  induction h with
  | nil p => exact ⟨[], rfl, .nil p⟩
  | @epsilon p mid q w hstep _ ih =>
    obtain ⟨labels, hword, hpath⟩ := ih
    refine ⟨none :: labels, ?_, .cons mid p q none labels hstep hpath⟩
    rw [List.reduceOption_cons_of_none, hword]
  | @edge p mid q b w hstep _ ih =>
    obtain ⟨labels, hword, hpath⟩ := ih
    refine ⟨some b :: labels, ?_, .cons mid p q (some b) labels hstep hpath⟩
    rw [List.reduceOption_cons_of_some, hword]

theorem path_of_isPath {p q : Nat} {labels : List (Option UInt8)}
    (h : (n.automaton f).IsPath p q labels) : n.Path p labels.reduceOption q := by
  induction h with
  | nil p => exact .nil p
  | cons mid p q label labels hstep _ ih =>
    cases label with
    | none =>
      rw [List.reduceOption_cons_of_none]
      exact .epsilon (mem_step_none.mp hstep) ih
    | some b =>
      rw [List.reduceOption_cons_of_some]
      exact .edge (mem_step_some.mp hstep) ih

/-- The word leads from one state to the other iff some list of labels that spells it
does so edge by edge. -/
theorem path_iff_isPath {p q : Nat} {w : List UInt8} :
    n.Path p w q ↔ ∃ labels, labels.reduceOption = w ∧ (n.automaton f).IsPath p q labels := by
  refine ⟨Path.exists_isPath, fun h => ?_⟩
  obtain ⟨labels, hword, hpath⟩ := h
  exact hword ▸ path_of_isPath hpath

/-- In a closed arena the simulation of a fragment answers every word, as does the match
with sets that ends when no edge is left. It answers yes iff a finite path of edges leads
from the entry to the exit whose labels in order are the bytes of the word. -/
theorem accepts?_decides_paths (hn : n.Closed) (hstart : f.start < n.size)
    (haccept : f.accept < n.size) (w : List UInt8) :
    ∃ found, n.accepts? f w = some found ∧ n.Matches f w found ∧
      (found = true ↔ ∃ labels, labels.reduceOption = w ∧
        (n.automaton f).IsPath f.start f.accept labels) := by
  have hfound := hn.accepts?_eq_accepts hstart w
  refine ⟨n.accepts f w, hfound, matches_iff.mpr hfound, ?_⟩
  rw [accepts_iff, ← path_iff_isPath]
  exact and_iff_right haccept

/-- Two states on a cycle of ε-edges; the second one reads the two bytes of `é`, the first
of them in two ways, and from the end an ε-edge leads back. -/
def accents : Nfa :=
  ⟨#[{ epsilon := [1] }, { edges := [(195, 1), (195, 2)], epsilon := [0] },
    { edges := [(169, 3)] }, { epsilon := [0] }]⟩

/-- The word `éé` is accepted, over a path that goes round the cycle once before it reads. -/
theorem accepts?_decides_paths_accents :
    accents.Closed ∧ accents.accepts? ⟨0, 3⟩ (Bytes.ofText "éé") = some true := by
  have hclosed : accents.Closed := by decide
  obtain ⟨found, hfound, _, hiff⟩ := accepts?_decides_paths (f := ⟨0, 3⟩) hclosed (by decide)
    (by decide) (Bytes.ofText "éé")
  have hjoin : ∀ {p q r x y}, (accents.automaton ⟨0, 3⟩).IsPath p q x →
      (accents.automaton ⟨0, 3⟩).IsPath q r y → (accents.automaton ⟨0, 3⟩).IsPath p r (x ++ y) :=
    fun hx hy => (εNFA.isPath_append _).mpr ⟨_, hx, hy⟩
  have hread : (accents.automaton ⟨0, 3⟩).IsPath 1 3 ([some 195] ++ [some 169]) :=
    hjoin (.singleton _ (show (195, 2) ∈ accents.edgesOf 1 by decide))
      (.singleton _ (show (169, 3) ∈ accents.edgesOf 2 by decide))
  have hinto : (accents.automaton ⟨0, 3⟩).IsPath 0 1 [none] :=
    .singleton _ (show 1 ∈ accents.epsilonOf 0 by decide)
  have hout : (accents.automaton ⟨0, 3⟩).IsPath 1 0 [none] :=
    .singleton _ (show 0 ∈ accents.epsilonOf 1 by decide)
  have hback : (accents.automaton ⟨0, 3⟩).IsPath 3 0 [none] :=
    .singleton _ (show 0 ∈ accents.epsilonOf 3 by decide)
  have hletter := hjoin hinto hread
  have hround := hjoin hinto hout
  refine ⟨hclosed, ?_⟩
  rw [hfound, hiff.mpr ⟨_, ?_, hjoin (hjoin hround hletter) (hjoin hback hletter)⟩]
  decide

end Munch.Nfa
