import Mathlib.Data.Nat.Find
import Munch.Proofs.Determinize
import Munch.Proofs.Nfa.Expression

/-!
# Lexicons of regular expressions

`Lexicon.Declares` says how a list of rules comes to be a lexicon: rule after
rule, the expression is built in fresh states of the arena and its fragment is
defined. `Lexicon.Realizes` is the invariant of this work. A definition never
fails on the way (`define_of_assembled`), and the regions of the fragments stay
apart, so the stamps that a word leads to are the rules whose language holds it.

The lowest rank wins among the stamps of a set, so a state of the table carries
the first rule that has the word (`Realizes.tag_eq_some_iff`).
-/

namespace Munch

/-- The name of a token and its words. -/
structure Rule where
  name : String
  pattern : Expression

/-- Of the rules that have the word, the one at `j` comes first. -/
structure FirstRule (rules : List Rule) (w : List UInt8) (j : Nat) (rule : Rule) : Prop where
  at_index : rules[j]? = some rule
  mem : w ∈ rule.pattern.language
  least : ∀ i < j, ∀ other, rules[i]? = some other → w ∉ other.pattern.language

theorem FirstRule.unique {rules : List Rule} {w : List UInt8} {i j : Nat} {a b : Rule}
    (ha : FirstRule rules w i a) (hb : FirstRule rules w j b) : i = j ∧ a = b := by
  have hij : i = j := by
    rcases Nat.lt_trichotomy i j with hlt | heq | hlt
    · exact absurd ha.mem (hb.least i hlt a ha.at_index)
    · exact heq
    · exact absurd hb.mem (ha.least j hlt b hb.at_index)
  subst hij
  exact ⟨rfl, Option.some.inj (ha.at_index.symm.trans hb.at_index)⟩

theorem FirstRule.exists {rules : List Rule} {w : List UInt8} {rule : Rule}
    (hrule : rule ∈ rules) (hw : w ∈ rule.pattern.language) :
    ∃ j first, FirstRule rules w j first := by
  classical
  have hex : ∃ j : Nat, ∃ first : Rule, rules[j]? = some first ∧ w ∈ first.pattern.language := by
    obtain ⟨j, hj⟩ := List.mem_iff_getElem?.mp hrule
    exact ⟨j, rule, hj, hw⟩
  obtain ⟨first, hfirst, hmem⟩ := Nat.find_spec hex
  refine ⟨Nat.find hex, first, hfirst, hmem, ?_⟩
  intro i hi other hother hother'
  exact Nat.find_min hex hi ⟨other, hother, hother'⟩

/-- If a rule in front has the word, then the first one that has it is in front. -/
theorem FirstRule.mem_front {front back : List Rule} {w : List UInt8} {j : Nat}
    {rule a : Rule} (h : FirstRule (front ++ back) w j rule) (ha : a ∈ front)
    (hw : w ∈ a.pattern.language) : rule ∈ front := by
  obtain ⟨i, hi⟩ := List.mem_iff_getElem?.mp ha
  have hlt : i < front.length := (List.getElem?_eq_some_iff.mp hi).1
  have hij : j ≤ i := by
    by_contra hlater
    refine h.least i (Nat.lt_of_not_le hlater) a ?_ hw
    rw [List.getElem?_append_left hlt]
    exact hi
  have hat := h.at_index
  rw [List.getElem?_append_left (Nat.lt_of_le_of_lt hij hlt)] at hat
  exact List.mem_of_getElem? hat

namespace Lexicon

open Nfa

/-- The lexicon holds these rules, each built in fresh states and then defined. -/
inductive Declares : Lexicon → List Rule → Prop
  | empty : Declares .empty []
  | define {l l' : Lexicon} {n : Nfa} {rules : List Rule} {rule : Rule} {f : Fragment} :
      Declares l rules → Expression.Assembles l.nfa n [(rule.pattern, f)] →
      ({ l with nfa := n } : Lexicon).define rule.name f = .ok l' → Declares l' (rules ++ [rule])

/-- The definitions are the rules in order, their fragments are apart and stand
for the patterns, and the exits of the fragments and nothing else are stamped. -/
structure Realizes (l : Lexicon) (rules : List Rule) : Prop where
  closed : l.nfa.Closed
  length : l.definitions.length = rules.length
  entry : ∀ j d, l.definitions[j]? = some d → ∃ rule, rules[j]? = some rule ∧
    d.name = rule.name ∧ d.priority = j + 1 ∧ l.nfa.Denotes d.fragment rule.pattern.language
  apart : l.definitions.Pairwise fun d e => l.nfa.Apart d.fragment.start e.fragment.start
  stamps : ∀ id tag, l.nfa.stampOf id = some tag ↔
    ∃ d ∈ l.definitions, id = d.fragment.accept ∧ tag = ⟨d.name, d.priority⟩

variable {l : Lexicon} {rules : List Rule} {n : Nfa} {rule : Rule} {f : Fragment}

theorem realizes_empty : Realizes .empty [] := by
  refine ⟨by decide, rfl, ?_, .nil, ?_⟩
  · intro j d hd
    cases hd
  · intro id tag
    rw [stampOf_eq_none_of_size_le (n := Lexicon.empty.nfa) (Nat.zero_le id)]
    constructor
    · intro h
      cases h
    · rintro ⟨d, hd, _⟩
      cases hd

theorem Realizes.denotes (h : l.Realizes rules) {d : Definition} (hd : d ∈ l.definitions) :
    ∃ L, l.nfa.Denotes d.fragment L := by
  obtain ⟨j, hj⟩ := List.mem_iff_getElem?.mp hd
  obtain ⟨rule, _, _, _, hden⟩ := h.entry j d hj
  exact ⟨_, hden⟩

/-! ## One more definition -/

/-- The exit of a fragment in fresh states is new to the base. -/
theorem size_le_accept_of_assembled {L : Language UInt8} (h : Assembled l.nfa n [(L, f)]) :
    l.nfa.size ≤ f.accept :=
  h.fresh _ List.mem_cons_self _ (h.denotes _ List.mem_cons_self).accept_mem

/-- The definition of an exit that is there and carries no stamp is not refused. -/
theorem define_of_unstamped (haccept : f.accept < l.nfa.size)
    (hstamp : l.nfa.stampOf f.accept = none) (name : String) :
    l.define name f = .ok (l.declare name f) := by
  obtain ⟨exit, hexit⟩ := exists_state? haccept
  have hnone : exit.stamp = none := by
    rw [stampOf, hexit] at hstamp
    exact hstamp
  unfold define
  simp only [hexit, hnone]

/-- A fresh exit carries no stamp, so its definition is not refused. -/
theorem define_of_assembled {L : Language UInt8} (h : Assembled l.nfa n [(L, f)])
    (name : String) :
    ({ l with nfa := n } : Lexicon).define name f =
      .ok (({ l with nfa := n } : Lexicon).declare name f) := by
  have hden : n.Denotes f L := h.denotes _ List.mem_cons_self
  have hfresh : n.stampOf f.accept = none := by
    rw [h.stamps]
    exact stampOf_eq_none_of_size_le (size_le_accept_of_assembled h)
  exact define_of_unstamped (l := { l with nfa := n }) hden.accept_lt hfresh name

/-- Stamping a fresh exit adds this stamp to those of the base. -/
theorem stampOf_stamp_of_assembled {L : Language UInt8} (h : Assembled l.nfa n [(L, f)])
    (new : Tag) {id : Nat} {tag : Tag} :
    (n.stamp f.accept new).stampOf id = some tag ↔
      l.nfa.stampOf id = some tag ∨ (id = f.accept ∧ tag = new) := by
  have hden : n.Denotes f L := h.denotes _ List.mem_cons_self
  rw [stampOf_stamp, h.stamps]
  by_cases hid : f.accept = id
  · subst hid
    rw [if_pos ⟨rfl, hden.accept_lt⟩, stampOf_eq_none_of_size_le (size_le_accept_of_assembled h)]
    simp [eq_comm]
  · rw [if_neg fun hsite => hid hsite.1]
    exact ⟨.inl, fun hor => hor.resolve_right fun hnew => hid hnew.1.symm⟩

/-- The definitions with one more at the end are the rules with one more at the end,
if the old fragments still stand for their patterns. -/
theorem Realizes.entry_append (h : l.Realizes rules) {m : Nfa}
    (hold : ∀ d ∈ l.definitions, ∀ L, l.nfa.Denotes d.fragment L → m.Denotes d.fragment L)
    (hnew : m.Denotes f rule.pattern.language) {j : Nat} {d : Definition}
    (hd : (l.definitions ++ [⟨rule.name, f, l.definitions.length + 1⟩])[j]? = some d) :
    ∃ r, (rules ++ [rule])[j]? = some r ∧ d.name = r.name ∧ d.priority = j + 1 ∧
      m.Denotes d.fragment r.pattern.language := by
  rw [List.getElem?_append] at hd
  split at hd
  case isTrue hlt =>
    obtain ⟨r, hr, hname, hprio, hden⟩ := h.entry j d hd
    refine ⟨r, ?_, hname, hprio, hold d (List.mem_of_getElem? hd) _ hden⟩
    rw [List.getElem?_append_left (h.length ▸ hlt)]
    exact hr
  case isFalse hge =>
    rw [List.getElem?_singleton] at hd
    split at hd
    · obtain rfl := Option.some.inj hd
      have hj : j = l.definitions.length := by omega
      refine ⟨rule, ?_, rfl, by rw [hj], hnew⟩
      rw [hj, h.length, List.getElem?_concat_length]
    · cases hd

theorem Realizes.declare (h : l.Realizes rules)
    (hn : Assembled l.nfa n [(rule.pattern.language, f)]) :
    (({ l with nfa := n } : Lexicon).declare rule.name f).Realizes (rules ++ [rule]) := by
  have hden : n.Denotes f rule.pattern.language := hn.denotes _ List.mem_cons_self
  let m := n.stamp f.accept ⟨rule.name, l.definitions.length + 1⟩
  show Realizes ⟨m, l.definitions ++ [⟨rule.name, f, l.definitions.length + 1⟩]⟩ (rules ++ [rule])
  have hself : Agree n m (n.region f.start) := agree_stamp n f.accept _ _
  -- the fragments that are there keep their edges
  have hold : ∀ d ∈ l.definitions, Agree l.nfa m (l.nfa.region d.fragment.start) := by
    intro d hd q hq
    obtain ⟨_, hdd⟩ := h.denotes hd
    rw [edgesOf_stamp, epsilonOf_stamp]
    exact hn.below q (hdd.bounded q hq)
  have hsize : m.size = n.size := size_stamp n _ _
  refine ⟨(hn.closed h.closed).stamp _ _, ?_, ?_, ?_, ?_⟩
  · rw [List.length_append, List.length_append, h.length]
    rfl
  · intro j d hd
    refine h.entry_append ?_ (hden.frame (Nat.le_of_eq hsize.symm) hself) hd
    exact fun d hd L hdd => hdd.frame (hsize ▸ hn.size_le) (hold d hd)
  -- the new region is beyond the old arena, so it meets no old one
  · refine List.pairwise_append.mpr ⟨?_, List.pairwise_singleton _ _, ?_⟩
    · exact h.apart.imp_of_mem fun hd he => (hold _ hd).apart (hold _ he)
    · intro d hd e he
      obtain ⟨_, hdd⟩ := h.denotes hd
      intro id hid hid'
      rw [(hold d hd).region] at hid
      rw [List.mem_singleton.mp he, hself.region] at hid'
      exact absurd (hdd.bounded id hid) (Nat.not_lt.mpr (hn.fresh _ List.mem_cons_self id hid'))
  · intro id tag
    refine (stampOf_stamp_of_assembled hn _).trans ?_
    simp only [List.mem_append, List.mem_singleton, or_and_right, exists_or, exists_eq_left]
    rw [h.stamps]

/-- Every rule adds its definition and keeps the rest. -/
theorem Declares.realizes (h : l.Declares rules) : l.Realizes rules := by
  induction h with
  | empty => exact realizes_empty
  | @define l l' n rules rule f _ hbuild hdefine ih =>
    have hn : Assembled l.nfa n [(rule.pattern.language, f)] := hbuild.assembled
    rw [define_of_assembled hn] at hdefine
    obtain rfl := Except.ok.inj hdefine
    exact ih.declare hn

/-- Building and declaring in one go is defining in fresh states. -/
theorem Declares.declareBuilt (h : l.Declares rules) (name : String) {r : Expression}
    {build : Build Fragment}
    (hbuild : Expression.Assembles l.nfa (build.run l.nfa).2 [(r, (build.run l.nfa).1)]) :
    (l.declareBuilt name build).Declares (rules ++ [⟨name, r⟩]) :=
  .define h hbuild (define_of_assembled hbuild.assembled name)

/-! ## The root -/

/-- ε-edges to the entries of definitions, added one by one, stand at the end of their
state in that order, and no other state is touched. -/
theorem state?_foldl_addEpsilon (n : Nfa) (source : Nat) (definitions : List Definition)
    (id : Nat) :
    (definitions.foldl (fun n d => n.addEpsilon source d.fragment.start) n).state? id =
      if source = id then (n.state? id).map fun s =>
        { s with epsilon := s.epsilon ++ definitions.map fun d => d.fragment.start }
      else n.state? id := by
  induction definitions generalizing n with
  | nil => simp
  | cons d definitions ih =>
    rw [List.foldl_cons, ih, state?_addEpsilon]
    split
    · rw [Option.map_map, List.map_cons]
      congr 1
      funext s
      simp
    · rfl

theorem size_foldl_addEpsilon (n : Nfa) (source : Nat) (definitions : List Definition) :
    (definitions.foldl (fun n d => n.addEpsilon source d.fragment.start) n).size = n.size := by
  induction definitions generalizing n with
  | nil => rfl
  | cons d definitions ih => rw [List.foldl_cons, ih, size_addEpsilon]

theorem state?_rooted (l : Lexicon) (id : Nat) : l.rooted.nfa.state? id =
    if id = l.nfa.size then some { epsilon := l.definitions.map fun d => d.fragment.start }
    else l.nfa.state? id := by
  unfold rooted
  rw [state?_foldl_addEpsilon, state?_addState]
  by_cases hid : id = l.nfa.size
  · simp [hid]
  · simp [hid, Ne.symm hid]

theorem size_rooted (l : Lexicon) : l.rooted.nfa.size = l.nfa.size + 1 := by
  unfold rooted
  rw [size_foldl_addEpsilon, size_addState]

theorem edgesOf_rooted (l : Lexicon) (id : Nat) : l.rooted.nfa.edgesOf id = l.nfa.edgesOf id := by
  unfold edgesOf
  rw [state?_rooted]
  apply elim_ite_some
  rfl

theorem epsilonOf_rooted (l : Lexicon) (id : Nat) : l.rooted.nfa.epsilonOf id =
    if id = l.nfa.size then l.definitions.map fun d => d.fragment.start
    else l.nfa.epsilonOf id := by
  unfold epsilonOf
  rw [state?_rooted]
  split <;> rfl

theorem stampOf_rooted (l : Lexicon) (id : Nat) : l.rooted.nfa.stampOf id = l.nfa.stampOf id := by
  rw [stampOf_eq_elim, stampOf_eq_elim, state?_rooted]
  apply elim_ite_some
  rfl

/-- The root leads to the entries of the definitions. -/
theorem closed_rooted (hn : l.nfa.Closed)
    (hstart : ∀ d ∈ l.definitions, d.fragment.start < l.nfa.size) : l.rooted.nfa.Closed := by
  have hsize := l.size_rooted
  constructor
  · intro id e he
    rw [edgesOf_rooted] at he
    have := hn.edges id e he
    omega
  · intro id t ht
    rw [epsilonOf_rooted] at ht
    split at ht
    · obtain ⟨d, hd, rfl⟩ := List.mem_map.mp ht
      have := hstart d hd
      omega
    · have := hn.epsilon id t ht
      omega

theorem Realizes.closed_rooted (h : l.Realizes rules) : l.rooted.nfa.Closed := by
  refine Lexicon.closed_rooted h.closed fun d hd => ?_
  obtain ⟨_, hden⟩ := h.denotes hd
  exact hden.start_lt

/-- Adding the root does not touch the fragments. -/
theorem Realizes.agree_rooted (h : l.Realizes rules) {d : Definition} (hd : d ∈ l.definitions) :
    Agree l.nfa l.rooted.nfa (l.nfa.region d.fragment.start) := by
  obtain ⟨_, hden⟩ := h.denotes hd
  intro q hq
  rw [edgesOf_rooted, epsilonOf_rooted, if_neg (Nat.ne_of_lt (hden.bounded q hq))]
  exact ⟨rfl, rfl⟩

/-- A path from the root stays there or goes through one of the fragments. -/
theorem Realizes.path_root (h : l.Realizes rules) {w : List UInt8} {q : Nat} :
    l.rooted.nfa.Path l.rooted.root w q ↔
      (q = l.nfa.size ∧ w = []) ∨ ∃ d ∈ l.definitions, l.nfa.Path d.fragment.start w q := by
  have hroot : l.rooted.nfa.epsilonOf l.nfa.size = l.definitions.map fun d => d.fragment.start := by
    rw [epsilonOf_rooted, if_pos rfl]
  constructor
  · intro hpath
    cases hpath with
    | nil _ => exact .inl ⟨rfl, rfl⟩
    | epsilon hstep hrest =>
      obtain ⟨d, hd, rfl⟩ := List.mem_map.mp (hroot ▸ hstep)
      exact .inr ⟨d, hd, (h.agree_rooted hd).path_iff.mp hrest⟩
    | edge hstep _ =>
      have hedges : l.nfa.edgesOf l.rooted.root = [] :=
        edgesOf_eq_nil_of_size_le (Nat.le_refl l.nfa.size)
      rw [edgesOf_rooted, hedges] at hstep
      cases hstep
  · rintro (⟨rfl, rfl⟩ | ⟨d, hd, hpath⟩)
    · exact .nil _
    · refine .epsilon ?_ ((h.agree_rooted hd).path_iff.mpr hpath)
      exact hroot ▸ List.mem_map_of_mem hd

/-! ## Stamps and rules -/

/-- Paths do not cross from one fragment to another. -/
theorem Realizes.eq_of_path (h : l.Realizes rules) {d e : Definition} (hd : d ∈ l.definitions)
    (he : e ∈ l.definitions) {w : List UInt8}
    (hpath : l.nfa.Path d.fragment.start w e.fragment.accept) : d = e := by
  by_contra hne
  obtain ⟨_, hden⟩ := h.denotes he
  have hsymm : Std.Symm fun d e : Definition => l.nfa.Apart d.fragment.start e.fragment.start :=
    ⟨fun _ _ hde => hde.symm⟩
  exact h.apart.forall hd he hne _ hpath.mem_region hden.accept_mem

/-- A word leads to the stamps of the rules that have it. -/
theorem Realizes.stamped_iff (h : l.Realizes rules) {w : List UInt8} {tag : Tag} :
    (∃ q ∈ l.rooted.nfa.run l.rooted.root w, l.rooted.nfa.stampOf q = some tag) ↔
      ∃ j rule, rules[j]? = some rule ∧ w ∈ rule.pattern.language ∧ tag = ⟨rule.name, j + 1⟩ := by
  constructor
  · rintro ⟨q, hq, hstamp⟩
    rw [stampOf_rooted] at hstamp
    obtain ⟨e, he, rfl, rfl⟩ := (h.stamps q tag).mp hstamp
    obtain ⟨j, hj⟩ := List.mem_iff_getElem?.mp he
    obtain ⟨rule, hrule, hname, hprio, hden⟩ := h.entry j e hj
    refine ⟨j, rule, hrule, ?_, by rw [hname, hprio]⟩
    -- the path enters by some fragment and ends in `e`, so it was `e` from the start
    rcases h.path_root.mp (mem_run.mp hq).2 with ⟨hroot, _⟩ | ⟨d, hd, hpath⟩
    · exact absurd hroot (Nat.ne_of_lt hden.accept_lt)
    · obtain rfl := h.eq_of_path hd he hpath
      exact (hden.words w).mp hpath
  · rintro ⟨j, rule, hrule, hw, rfl⟩
    have hj : j < l.definitions.length := by
      rw [h.length]
      exact (List.getElem?_eq_some_iff.mp hrule).1
    obtain ⟨rule', hrule', hname, hprio, hden⟩ := h.entry j _ (List.getElem?_eq_getElem hj)
    obtain rfl := Option.some.inj (hrule.symm.trans hrule')
    have hmem := List.getElem_mem hj
    refine ⟨l.definitions[j].fragment.accept, mem_run.mpr ⟨?_, ?_⟩, ?_⟩
    · have := hden.accept_lt
      rw [size_rooted]
      omega
    · exact h.path_root.mpr (.inr ⟨_, hmem, (hden.words w).mpr hw⟩)
    · rw [stampOf_rooted]
      exact (h.stamps _ _).mpr ⟨_, hmem, rfl, by rw [hname, hprio]⟩

/-- The stamp that prevails after a word is that of the first rule that has it. -/
theorem Realizes.firstRule_of_bestStamp (h : l.Realizes rules) {w : List UInt8} {tag : Tag}
    (hbest : l.rooted.nfa.bestStamp (l.rooted.nfa.run l.rooted.root w) = some tag) :
    ∃ j rule, FirstRule rules w j rule ∧ tag = ⟨rule.name, j + 1⟩ := by
  obtain ⟨q, hq⟩ := (bestStamp_eq_some_iff (pairwise_run _ _)).mp hbest
  obtain ⟨j, rule, hrule, hw, rfl⟩ := h.stamped_iff.mp ⟨q, hq.mem, hq.stamp⟩
  refine ⟨j, rule, ⟨hrule, hw, ?_⟩, rfl⟩
  intro i hi other hother hmem
  -- an earlier rule with the word would have left a stamp of lower priority
  obtain ⟨q', hq', hstamp⟩ := h.stamped_iff.mpr ⟨i, other, hother, hmem, rfl⟩
  have hleast := hq.least q' hq' _ hstamp
  simp only at hleast
  omega

theorem Realizes.bestStamp_eq_some_iff (h : l.Realizes rules) {w : List UInt8} {tag : Tag} :
    l.rooted.nfa.bestStamp (l.rooted.nfa.run l.rooted.root w) = some tag ↔
      ∃ j rule, FirstRule rules w j rule ∧ tag = ⟨rule.name, j + 1⟩ := by
  refine ⟨h.firstRule_of_bestStamp, ?_⟩
  rintro ⟨j, rule, hfirst, rfl⟩
  obtain ⟨q, hq, hstamp⟩ := h.stamped_iff.mpr ⟨j, rule, hfirst.at_index, hfirst.mem, rfl⟩
  -- some stamp prevails, and there is only one first rule
  cases hbest : l.rooted.nfa.bestStamp (l.rooted.nfa.run l.rooted.root w) with
  | none =>
    rw [bestStamp_eq_none_iff.mp hbest q hq] at hstamp
    cases hstamp
  | some tag =>
    obtain ⟨i, other, hother, rfl⟩ := h.firstRule_of_bestStamp hbest
    obtain ⟨rfl, rfl⟩ := hother.unique hfirst
    rfl

/-! ## The table -/

theorem table?_eq_table (hn : l.rooted.nfa.Closed) : l.table? = some l.table := by
  apply RootedNfa.determinize?_eq_determinize _ hn
  rw [size_rooted]
  exact Nat.lt_succ_self _

theorem Realizes.table?_eq (h : l.Realizes rules) : l.table? = some l.table :=
  table?_eq_table h.closed_rooted

/-- The table accepts the printable words of the rules, with the first rule each. -/
theorem Realizes.tag_eq_some_iff (h : l.Realizes rules) {w : List UInt8} {tag : Tag} :
    (l.table.walk? l.table.start w).bind l.table.acceptOf = some tag ↔
      (∀ b ∈ w, b ∈ Alphabet.symbols) ∧
        ∃ j rule, FirstRule rules w j rule ∧ tag = ⟨rule.name, j + 1⟩ := by
  have htable : l.rooted.nfa.TableOf l.rooted.root l.table := l.rooted.determinize_tableOf
  rw [← h.bestStamp_eq_some_iff, Option.bind_eq_some_iff]
  constructor
  · rintro ⟨id, hwalk, haccept⟩
    obtain ⟨_, hprintable, _, hbest⟩ := htable.walk?_start hwalk
    exact ⟨hprintable, hbest ▸ haccept⟩
  · rintro ⟨hprintable, hbest⟩
    have hne : l.rooted.nfa.run l.rooted.root w ≠ [] := by
      intro hnil
      rw [hnil] at hbest
      cases hbest
    obtain ⟨id, hwalk⟩ := htable.exists_walk?_start hprintable hne
    obtain ⟨_, _, _, haccept⟩ := htable.walk?_start hwalk
    exact ⟨id, hwalk, haccept.trans hbest⟩

end Lexicon

end Munch
