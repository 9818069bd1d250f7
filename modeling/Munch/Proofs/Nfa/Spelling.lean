import Munch.Proofs.Bytes
import Munch.Proofs.Nfa.Patterns

/-!
# Expressions over texts

Expressions speak of bytes, sources are texts. An expression spells a language of
texts if its words are the bytes of these texts. As appending texts appends their
bytes, the operators keep this up, and as different texts have different bytes,
a text belongs to the expression exactly if it belongs to the language
(`Spells.mem_iff`).
-/

namespace Munch.Expression

open Bytes

/-- The words of the expression are the bytes of the texts. -/
def Spells (r : Expression) (T : Language Char) : Prop :=
  ∀ w, w ∈ r.language ↔ ∃ v ∈ T, ofChars v = w

variable {r s : Expression} {T U : Language Char}

theorem Spells.mem_iff (h : Spells r T) {v : List Char} : ofChars v ∈ r.language ↔ v ∈ T := by
  rw [h]
  constructor
  · rintro ⟨v', hv', heq⟩
    exact ofChars_injective heq ▸ hv'
  · exact fun hv => ⟨v, hv, rfl⟩

/-! ## Operators -/

theorem Spells.concat (hr : Spells r T) (hs : Spells s U) : Spells (r.concat s) (T * U) := by
  intro w
  show w ∈ r.language * s.language ↔ _
  rw [Language.mem_mul]
  constructor
  · rintro ⟨a, ha, b, hb, rfl⟩
    obtain ⟨v, hv, rfl⟩ := (hr a).mp ha
    obtain ⟨v', hv', rfl⟩ := (hs b).mp hb
    exact ⟨v ++ v', Language.append_mem_mul hv hv', ofChars_append v v'⟩
  · rintro ⟨_, ⟨v, hv, v', hv', rfl⟩, rfl⟩
    exact ⟨_, hr.mem_iff.mpr hv, _, hs.mem_iff.mpr hv', (ofChars_append v v').symm⟩

theorem Spells.union (hr : Spells r T) (hs : Spells s U) : Spells (r.union s) (T + U) := by
  intro w
  show w ∈ r.language + s.language ↔ _
  simp only [Language.mem_add, hr w, hs w, or_and_right, exists_or]

theorem Spells.star (hr : Spells r T) : Spells r.star (KStar.kstar T) := by
  intro w
  show w ∈ KStar.kstar r.language ↔ _
  rw [Language.mem_kstar]
  constructor
  · rintro ⟨ws, rfl, hws⟩
    -- read the words back one after the other
    induction ws with
    | nil => exact ⟨[], Language.nil_mem_kstar T, rfl⟩
    | cons a ws ih =>
      rw [List.forall_mem_cons] at hws
      obtain ⟨v, hv, rfl⟩ := (hr a).mp hws.1
      obtain ⟨v', ⟨vs, rfl, hvs⟩, heq⟩ := ih hws.2
      refine ⟨v ++ vs.flatten, ⟨v :: vs, rfl, List.forall_mem_cons.mpr ⟨hv, hvs⟩⟩, ?_⟩
      rw [ofChars_append, heq, List.flatten_cons]
  · rintro ⟨_, ⟨vs, rfl, hvs⟩, rfl⟩
    refine ⟨vs.map ofChars, ofChars_flatten vs, ?_⟩
    intro y hy
    obtain ⟨v, hv, rfl⟩ := List.mem_map.mp hy
    exact hr.mem_iff.mpr (hvs v hv)

theorem Spells.plus (hr : Spells r T) : Spells r.plus (T * KStar.kstar T) :=
  hr.concat hr.star

/-! ## Atoms -/

/-- The texts of one character of a class. -/
def oneChar (p : Char → Bool) : Language Char :=
  {v | ∃ c, p c = true ∧ v = [c]}

theorem spells_literal {c : Char} (hc : c.toNat ≤ 127) :
    Spells (.atom (.literal (ofChar c))) {[c]} := by
  have hone : ofChars [c] = [ofChar c] := ofChars_of_ascii (List.forall_mem_singleton.mpr hc)
  intro w
  constructor
  · rintro rfl
    exact ⟨[c], rfl, hone⟩
  · rintro ⟨_, rfl, rfl⟩
    exact hone

theorem spells_text (text : String) (hne : ofText text ≠ []) :
    Spells (.atom (.text (ofText text) hne)) {text.toList} := by
  intro w
  constructor
  · rintro rfl
    exact ⟨_, rfl, rfl⟩
  · rintro ⟨_, rfl, rfl⟩
    rfl

/-- A class of ASCII bytes is a class of characters. -/
theorem spells_class {a : Atom} {P : UInt8 → Prop} {p : Char → Bool}
    (ha : ∀ w, w ∈ a.language ↔ ∃ b, P b ∧ w = [b]) (hP : ∀ b, P b → b.toNat ≤ 127)
    (hclass : ∀ c, p c = true ↔ c.toNat ≤ 127 ∧ P (ofChar c)) :
    Spells (.atom a) (oneChar p) := by
  have hone : ∀ c : Char, c.toNat ≤ 127 → ofChars [c] = [ofChar c] :=
    fun c hc => ofChars_of_ascii (List.forall_mem_singleton.mpr hc)
  intro w
  refine (ha w).trans ⟨?_, ?_⟩
  · rintro ⟨b, hb, rfl⟩
    have hascii := hP b hb
    obtain ⟨c, hc, rfl⟩ := exists_ofChar_eq hascii
    exact ⟨[c], ⟨c, (hclass c).mpr ⟨hc, hb⟩, rfl⟩, hone c hc⟩
  · rintro ⟨_, ⟨c, hc, rfl⟩, rfl⟩
    obtain ⟨hascii, hb⟩ := (hclass c).mp hc
    exact ⟨ofChar c, hb, hone c hascii⟩

theorem spells_range {lo hi : UInt8} (hle : lo ≤ hi) (hhi : hi.toNat ≤ 127) {p : Char → Bool}
    (hp : ∀ c, p c = true ↔ lo.toNat ≤ c.toNat ∧ c.toNat ≤ hi.toNat) :
    Spells (.atom (.range lo hi hle)) (oneChar p) := by
  apply spells_class (P := fun b => lo ≤ b ∧ b ≤ hi)
  · intro w
    simp only [and_assoc]
    rfl
  · rintro b ⟨_, hb⟩
    exact Nat.le_trans (UInt8.le_iff_toNat_le.mp hb) hhi
  · intro c
    rw [hp, UInt8.le_iff_toNat_le, UInt8.le_iff_toNat_le]
    constructor
    · intro hc
      have hascii : c.toNat ≤ 127 := Nat.le_trans hc.2 hhi
      rw [toNat_ofChar hascii]
      exact ⟨hascii, hc⟩
    · rintro ⟨hascii, hc⟩
      rw [toNat_ofChar hascii] at hc
      exact hc

theorem spells_anyExcept {d : Char} (hd : d.toNat ≤ 127) {p : Char → Bool}
    (hp : ∀ c, p c = true ↔ (32 ≤ c.toNat ∧ c.toNat ≤ 126) ∧ c ≠ d) :
    Spells (.atom (.anyExcept (ofChar d))) (oneChar p) := by
  apply spells_class (P := fun b => (32 ≤ b.toNat ∧ b.toNat ≤ 126) ∧ b ≠ ofChar d)
  · intro w
    simp only [and_assoc]
    rfl
  · rintro b ⟨⟨_, hb⟩, _⟩
    omega
  · intro c
    rw [hp]
    constructor
    · rintro ⟨hc, hne⟩
      have hascii : c.toNat ≤ 127 := by omega
      rw [toNat_ofChar hascii]
      exact ⟨hascii, hc, fun heq => hne (ofChar_injective hascii hd heq)⟩
    · rintro ⟨hascii, hc, hne⟩
      rw [toNat_ofChar hascii] at hc
      exact ⟨hc, fun heq => hne (by rw [heq])⟩

theorem spells_anyChar {p : Char → Bool}
    (hp : ∀ c, p c = true ↔ 32 ≤ c.toNat ∧ c.toNat ≤ 126 ∨ c = '\n') :
    Spells (.atom .anyChar) (oneChar p) := by
  apply spells_class (P := fun b => 32 ≤ b.toNat ∧ b.toNat ≤ 126 ∨ b = ofChar '\n') (fun w => Iff.rfl)
  · rintro b (hb | rfl)
    · omega
    · decide
  · intro c
    rw [hp]
    constructor
    · rintro (hc | rfl)
      · have hascii : c.toNat ≤ 127 := by omega
        rw [toNat_ofChar hascii]
        exact ⟨hascii, .inl hc⟩
      · exact ⟨by decide, .inr rfl⟩
    · rintro ⟨hascii, hc⟩
      rw [toNat_ofChar hascii] at hc
      exact hc.imp_right fun heq => ofChar_injective hascii (by decide) heq

theorem oneChar_add (p q : Char → Bool) : oneChar p + oneChar q = oneChar fun c => p c || q c := by
  ext v
  simp only [oneChar, Bool.or_eq_true, or_and_right, exists_or]
  rfl

theorem mem_kstar_oneChar {p : Char → Bool} {v : List Char} :
    v ∈ KStar.kstar (oneChar p) ↔ ∀ c ∈ v, p c = true := by
  rw [Language.mem_kstar]
  constructor
  · rintro ⟨vs, rfl, hvs⟩ c hc
    obtain ⟨u, hu, hcu⟩ := List.mem_flatten.mp hc
    obtain ⟨c', hc', rfl⟩ := hvs u hu
    exact List.mem_singleton.mp hcu ▸ hc'
  · intro h
    refine ⟨v.map fun c => [c], by simp [← List.flatMap_def], ?_⟩
    intro u hu
    obtain ⟨c, hc, rfl⟩ := List.mem_map.mp hu
    exact ⟨c, h c hc, rfl⟩

theorem mem_plus_oneChar {p : Char → Bool} {v : List Char} :
    v ∈ oneChar p * KStar.kstar (oneChar p) ↔ v ≠ [] ∧ ∀ c ∈ v, p c = true := by
  rw [Language.mem_mul]
  constructor
  · rintro ⟨_, ⟨c, hc, rfl⟩, v', hv', rfl⟩
    refine ⟨by simp, List.forall_mem_cons.mpr ⟨hc, mem_kstar_oneChar.mp hv'⟩⟩
  · rintro ⟨hne, hall⟩
    cases v with
    | nil => exact absurd rfl hne
    | cons c v =>
      rw [List.forall_mem_cons] at hall
      exact ⟨[c], ⟨c, hall.1, rfl⟩, v, mem_kstar_oneChar.mpr hall.2, rfl⟩

end Munch.Expression
