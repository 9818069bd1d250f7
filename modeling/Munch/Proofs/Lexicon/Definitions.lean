import Mathlib.Data.List.Nodup
import Mathlib.Logic.Relation
import Munch.Proofs.Lexicon
import Munch.Proofs.Nfa.Edit

/-!
# Definitions and stamps

The arena of a lexicon is open to every edit, also to stamps that belong to no
definition, between one definition and the next. `Lexicon.Step` is all that can happen
to a lexicon, and `Lexicon.Evolves` a sequence of it.

A step adds to the arena and may then append one definition, whose exit was not stamped
and now is. So the link between the definitions and the stamps, `Lexicon.Coherent`,
holds of all that evolves from the empty lexicon, and a definition once made stays.
-/

namespace Munch

namespace Lexicon

open Nfa

variable {l l' : Lexicon} {name : String} {f : Fragment}

/-! ## What happens to a lexicon -/

/-- The lexicon behind an attempt to define, which is the old one if it is refused. -/
def attempt (l : Lexicon) (name : String) (f : Fragment) : Lexicon :=
  match l.define name f with
  | .ok l' => l'
  | .error _ => l

/-- The lexicon behind an attempt to build and define. If it is refused, then what was
built stays. -/
def attemptBuilt (l : Lexicon) (name : String) (build : Build Fragment) : Lexicon :=
  match l.defineBuilt name build with
  | .ok l' => l'
  | .error _ => { l with nfa := (build.run l.nfa).2 }

/-- One act: an edit of the arena, or a definition of a fragment with an existing exit,
which may be built on the way by edits. -/
inductive Step (l : Lexicon) : Lexicon → Prop
  | edit {e : Edit} {n : Nfa} (h : l.nfa.edit? e = some n) : Step l { l with nfa := n }
  | define (name : String) (f : Fragment) (hexit : f.accept < l.nfa.size) :
      Step l (l.attempt name f)
  | defineBuilt (name : String) {build : Build Fragment} {edits : List Edit}
      (hbuild : edits.foldlM edit? l.nfa = some (build.run l.nfa).2)
      (hexit : (build.run l.nfa).1.accept < (build.run l.nfa).2.size) :
      Step l (l.attemptBuilt name build)

/-- The second lexicon comes from the first, act by act. -/
def Evolves : Lexicon → Lexicon → Prop :=
  Relation.ReflTransGen Step

/-! ## One definition -/

theorem define_of_stamped {tag : Tag} (h : l.nfa.stampOf f.accept = some tag) (name : String) :
    l.define name f = .error (.alreadyStamped name tag.token f.accept) := by
  obtain ⟨exit, hexit, hstamp⟩ := Option.bind_eq_some_iff.mp h
  unfold define
  simp only [hexit, hstamp]

/-- The definition of an existing exit is refused for its stamp and for nothing else. -/
theorem define_eq_error_iff (hexit : f.accept < l.nfa.size) {err : DefinitionError} :
    l.define name f = .error err ↔
      ∃ tag, l.nfa.stampOf f.accept = some tag ∧ err = .alreadyStamped name tag.token f.accept := by
  cases hstamp : l.nfa.stampOf f.accept with
  | none => simp [define_of_unstamped hexit hstamp]
  | some tag => simp [define_of_stamped hstamp, eq_comm]

/-- A definition that is not refused goes behind the others, with the next rank. -/
theorem definitions_of_define (hexit : f.accept < l.nfa.size) (h : l.define name f = .ok l') :
    l'.definitions = l.definitions ++ [⟨name, f, l.definitions.length + 1⟩] := by
  cases hstamp : l.nfa.stampOf f.accept with
  | none =>
    rw [define_of_unstamped hexit hstamp] at h
    obtain rfl := Except.ok.inj h
    rfl
  | some tag =>
    rw [define_of_stamped hstamp] at h
    cases h

theorem attempt_of_stamped {tag : Tag} (h : l.nfa.stampOf f.accept = some tag) (name : String) :
    l.attempt name f = l := by
  unfold attempt
  rw [define_of_stamped h]

theorem attempt_of_unstamped (hexit : f.accept < l.nfa.size)
    (h : l.nfa.stampOf f.accept = none) (name : String) :
    l.attempt name f = l.declare name f := by
  unfold attempt
  rw [define_of_unstamped hexit h]

theorem attempt_eq_or (hexit : f.accept < l.nfa.size) (name : String) :
    l.attempt name f = l ∨
      l.nfa.stampOf f.accept = none ∧ l.attempt name f = l.declare name f := by
  cases hstamp : l.nfa.stampOf f.accept with
  | none => exact .inr ⟨rfl, attempt_of_unstamped hexit hstamp name⟩
  | some tag => exact .inl (attempt_of_stamped hstamp name)

theorem attemptBuilt_eq (l : Lexicon) (name : String) (build : Build Fragment) :
    l.attemptBuilt name build =
      ({ l with nfa := (build.run l.nfa).2 } : Lexicon).attempt name (build.run l.nfa).1 :=
  rfl

/-- All that a step can do: it adds to the arena, and it may then define a fragment whose
exit has no stamp. -/
theorem Step.widens_declare (h : Step l l') : ∃ sites n, Widens sites l.nfa n ∧
    (l' = { l with nfa := n } ∨ ∃ name f, f.accept < n.size ∧ n.stampOf f.accept = none ∧
      l' = ({ l with nfa := n } : Lexicon).declare name f) := by
  cases h with
  | edit hedit => exact ⟨_, _, widens_of_edit? hedit, .inl rfl⟩
  | define name f hexit =>
    refine ⟨[], l.nfa, .refl _ _, ?_⟩
    exact (attempt_eq_or hexit name).imp_right fun ⟨hstamp, heq⟩ => ⟨name, f, hexit, hstamp, heq⟩
  | @defineBuilt name build edits hbuild hexit =>
    refine ⟨_, _, widens_of_foldlM hbuild, ?_⟩
    rw [attemptBuilt_eq]
    exact (attempt_eq_or hexit name).imp_right fun ⟨hstamp, heq⟩ =>
      ⟨name, (build.run l.nfa).1, hexit, hstamp, heq⟩

/-! ## Definitions and stamps agree -/

/-- The definitions are ranked from 1 in order, and the exit of each carries its name and
its rank. -/
structure Coherent (l : Lexicon) : Prop where
  priorities : l.definitions.map Definition.priority = List.range' 1 l.definitions.length
  stamps : ∀ d ∈ l.definitions, l.nfa.stampOf d.fragment.accept = some ⟨d.name, d.priority⟩

theorem coherent_empty : Coherent .empty :=
  ⟨rfl, fun _ hd => absurd hd (List.not_mem_nil)⟩

namespace Coherent

/-- The exit tells the rank, and no two ranks are the same. -/
theorem nodup_accept (h : l.Coherent) : (l.definitions.map fun d => d.fragment.accept).Nodup := by
  have hranks : (l.definitions.map fun d => d.fragment.accept).map
      (fun id => (l.nfa.stampOf id).elim 0 Tag.priority) =
        l.definitions.map Definition.priority := by
    rw [List.map_map]
    exact List.map_congr_left fun d hd => by simp [h.stamps d hd]
  apply List.Nodup.of_map
  rw [hranks, h.priorities]
  exact List.nodup_range'

theorem widen {sites : List Nat} {n : Nfa} (h : l.Coherent) (hn : Widens sites l.nfa n) :
    Coherent { l with nfa := n } where
  priorities := h.priorities
  stamps := fun d hd => hn.stamps _ _ (h.stamps d hd)

theorem declare (h : l.Coherent) (hexit : f.accept < l.nfa.size)
    (hstamp : l.nfa.stampOf f.accept = none) (name : String) : (l.declare name f).Coherent where
  priorities := by
    simp [Lexicon.declare, nextPriority, h.priorities, List.range'_concat, Nat.add_comm]
  stamps := by
    intro d hd
    show (l.nfa.stamp f.accept ⟨name, l.nextPriority⟩).stampOf d.fragment.accept = _
    rw [stampOf_stamp]
    rcases List.mem_append.mp hd with hd | hd
    · -- an old exit has a stamp, so the new one passes it by
      simp [h.stamps d hd]
    · obtain rfl := List.mem_singleton.mp hd
      simp [hexit, hstamp]

theorem step (h : l.Coherent) (hstep : Step l l') : l'.Coherent := by
  obtain ⟨sites, n, hn, rfl | ⟨name, f, hexit, hstamp, rfl⟩⟩ := hstep.widens_declare
  · exact h.widen hn
  · exact (h.widen hn).declare hexit hstamp name

end Coherent

theorem Evolves.coherent (h : Evolves .empty l) : l.Coherent := by
  induction h with
  | refl => exact coherent_empty
  | tail _ hstep ih => exact ih.step hstep

/-! ## Definitions stay -/

theorem Step.definitions_prefix (h : Step l l') : l.definitions <+: l'.definitions := by
  obtain ⟨_, n, _, rfl | ⟨name, f, _, _, rfl⟩⟩ := h.widens_declare
  · exact List.prefix_rfl
  · exact List.prefix_append _ _

theorem Evolves.definitions_prefix (h : Evolves l l') : l.definitions <+: l'.definitions := by
  induction h with
  | refl => exact List.prefix_rfl
  | tail _ hstep ih => exact ih.trans hstep.definitions_prefix

/-- In all that evolves from the empty lexicon the definitions are ranked from 1 in order,
their exits differ, and each exit carries the name and rank of its definition from then
on. A definition is refused if and only if its exit is stamped; the refusal names that
stamp and changes nothing. A root is one more state, with no stamp and an ε-edge to each
entry in order, and leaves the others as they are. -/
theorem definitions_of_evolves (h : Evolves .empty l) (hlater : Evolves l l') :
    (l.definitions.map Definition.priority = List.range' 1 l.definitions.length ∧
      (l.definitions.map fun d => d.fragment.accept).Nodup ∧
      l.definitions <+: l'.definitions ∧
      ∀ d ∈ l.definitions, l'.nfa.stampOf d.fragment.accept = some ⟨d.name, d.priority⟩) ∧
    (∀ name f, f.accept < l.nfa.size →
      (∀ err, l.define name f = .error err ↔ ∃ tag, l.nfa.stampOf f.accept = some tag ∧
        err = .alreadyStamped name tag.token f.accept) ∧
      (∀ next, l.define name f = .ok next →
        next.definitions = l.definitions ++ [⟨name, f, l.definitions.length + 1⟩]) ∧
      ((l.nfa.stampOf f.accept).isSome →
        (∀ tag, l.nfa.stamp f.accept tag = l.nfa) ∧ l.attempt name f = l)) ∧
    l.rooted.root = l.nfa.size ∧ l.rooted.nfa.size = l.nfa.size + 1 ∧
    l.rooted.nfa.state? l.rooted.root = some
      { edges := [], epsilon := l.definitions.map fun d => d.fragment.start, stamp := none } ∧
    ∀ id < l.nfa.size, l.rooted.nfa.state? id = l.nfa.state? id := by
  have hcoherent := h.coherent
  have hcoherent' : l'.Coherent := Evolves.coherent (h.trans hlater)
  have hstay := hlater.definitions_prefix
  refine ⟨⟨hcoherent.priorities, hcoherent.nodup_accept, hstay,
    fun d hd => hcoherent'.stamps d (hstay.subset hd)⟩,
    fun name f hexit => ⟨fun err => define_eq_error_iff hexit,
      fun next => definitions_of_define hexit, ?_⟩, rfl, l.size_rooted, ?_, ?_⟩
  · intro hstamp
    obtain ⟨tag, htag⟩ := Option.isSome_iff_exists.mp hstamp
    exact ⟨stamp_eq_self htag, attempt_of_stamped htag name⟩
  · rw [state?_rooted]
    exact if_pos rfl
  · intro id hid
    rw [state?_rooted]
    exact if_neg (Nat.ne_of_lt hid)

/-- A letter in an arena of its own. -/
def oneLetter : Lexicon where
  nfa := ((Build.literal 97).run .empty).2

/-- The letter is defined, and its exit is offered for a second token in vain. -/
def offered : Lexicon :=
  (oneLetter.attempt "a" ⟨0, 1⟩).attempt "again" ⟨0, 1⟩

/-- Then its entry gets a stamp by hand, and another letter is built and defined. -/
def twoLetters : Lexicon :=
  ({ offered with nfa := offered.nfa.stamp 0 ⟨"entry", 7⟩ } : Lexicon).attemptBuilt "b"
    (Build.literal 98)

/-- Last, the first letter is repeated. -/
def repeated : Lexicon :=
  { twoLetters with nfa := ((Build.star ⟨0, 1⟩).run twoLetters.nfa).2 }

theorem evolves_offered : Evolves .empty offered := by
  have hletter : Step .empty oneLetter := .edit (e := .literal 97) rfl
  have hdefine : Step oneLetter (oneLetter.attempt "a" ⟨0, 1⟩) := .define _ _ (by decide)
  have hrefuse : Step (oneLetter.attempt "a" ⟨0, 1⟩) offered := .define _ _ (by decide)
  exact ((Relation.ReflTransGen.single hletter).tail hdefine).tail hrefuse

theorem evolves_twoLetters : Evolves .empty twoLetters := by
  have hstamp : Step offered { offered with nfa := offered.nfa.stamp 0 ⟨"entry", 7⟩ } :=
    .edit (e := .stamp 0 ⟨"entry", 7⟩) rfl
  have hbuild : [Edit.literal 98].foldlM edit? (offered.nfa.stamp 0 ⟨"entry", 7⟩) =
    some ((Build.literal 98).run (offered.nfa.stamp 0 ⟨"entry", 7⟩)).2 := rfl
  exact (evolves_offered.tail hstamp).tail (.defineBuilt "b" hbuild (by decide))

/-- The refused token took no rank, and the stamp by hand stands in the way of a third. -/
theorem definitions_of_evolves_twoLetters :
    Evolves .empty twoLetters ∧ Evolves twoLetters repeated ∧
    twoLetters.definitions.map Definition.priority = [1, 2] ∧
    repeated.nfa.stampOf 3 = some ⟨"b", 2⟩ ∧
    twoLetters.define "late" ⟨1, 0⟩ = .error (.alreadyStamped "late" "entry" 0) := by
  have hlater : Evolves twoLetters repeated := .single (.edit (e := .star ⟨0, 1⟩) rfl)
  obtain ⟨⟨hranks, _, _, hstamps⟩, hdefine, _⟩ := definitions_of_evolves evolves_twoLetters hlater
  refine ⟨evolves_twoLetters, hlater, hranks, hstamps ⟨"b", ⟨2, 3⟩, 2⟩ (by decide), ?_⟩
  exact ((hdefine "late" ⟨1, 0⟩ (by decide)).1 _).mpr ⟨⟨"entry", 7⟩, by decide, rfl⟩

end Lexicon

end Munch
