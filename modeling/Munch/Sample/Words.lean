/-!
# Drawing from a source of words

All choices are drawn from a source of 32-bit words, given as an action that
yields the next word. `below` draws evenly from the numbers below a bound: the
high half of word times bound is the number, and when the low half is so large
that the division by `2 ^ 32` could be off, one more word decides whether to
carry. That the number stays below the bound is in its type.
-/

namespace Munch

/-- An action on a source of words. -/
abbrev Draw (σ : Type) := StateM σ

namespace Draw

variable {σ α : Type} (word : Draw σ UInt32)

theorem high_lt (w : UInt32) {n : Nat} (h : 0 < n) : w.toNat * n / UInt32.size < n := by
  have hw : w.toNat < UInt32.size := w.toNat_lt_size
  apply Nat.div_lt_of_lt_mul
  exact Nat.mul_lt_mul_of_pos_right hw h

/-- With a large low half the high half is not the last number. -/
theorem high_succ_lt (w : UInt32) {n : Nat}
    (h : UInt32.size - n < w.toNat * n % UInt32.size) : w.toNat * n / UInt32.size + 1 < n := by
  have hsize : UInt32.size = 4294967296 := rfl
  rw [hsize] at h ⊢
  have hw : w.toNat ≤ 4294967295 := by have := w.toNat_lt; omega
  have hp : w.toNat * n ≤ 4294967295 * n := Nat.mul_le_mul_right n hw
  omega

/-- A number below `n`. -/
def below (n : Nat) (h : 0 < n) : Draw σ (Fin n) := fun s =>
  let (w, s) := word s
  if hlow : UInt32.size - n < w.toNat * n % UInt32.size then
    let (more, s) := word s
    if UInt32.size ≤ w.toNat * n % UInt32.size + more.toNat * n / UInt32.size then
      (⟨w.toNat * n / UInt32.size + 1, high_succ_lt w hlow⟩, s)
    else (⟨w.toNat * n / UInt32.size, high_lt w h⟩, s)
  else (⟨w.toNat * n / UInt32.size, high_lt w h⟩, s)

/-- A number from `lo` to `hi`. -/
def between (lo hi : Nat) : Draw σ Nat := do
  let i ← below word (hi - lo + 1) (Nat.succ_pos _)
  return lo + i

/-- One of the elements of a list. -/
def pick (xs : List α) (h : xs ≠ []) : Draw σ α := do
  let i ← below word xs.length (List.length_pos_iff.mpr h)
  return xs.get i

/-- The same draw `n` times. -/
def times (n : Nat) (act : Draw σ α) : Draw σ (List α) :=
  match n with
  | 0 => return []
  | n + 1 => do
    let x ← act
    let xs ← times n act
    return x :: xs

/-- Between `lo` and `hi` elements of a list. -/
def someOf (xs : List α) (h : xs ≠ []) (lo hi : Nat) : Draw σ (List α) := do
  let n ← between word lo hi
  times n (pick word xs h)

/-- A fair coin: of two words, the first is low and the second high, and the
upper bit of the pair decides. -/
def coin : Draw σ Bool := do
  let low ← word
  let high ← word
  return low.toNat + high.toNat * UInt32.size < UInt64.size / 2

end Draw

/-! ## Sources -/

namespace Words

/-- A linear congruential source: the state is advanced modulo `2 ^ 64`, and its
upper half is the word. -/
def congruential : Draw UInt64 UInt32 := fun s =>
  let s := s * 6364136223846793005 + 1442695040888963407
  ((s >>> 32).toUInt32, s)

/-- A list of words over and over: the state holds what is left of the current
round and the whole list. -/
def cycle : Draw (List UInt32 × List UInt32) UInt32 := fun s =>
  match s with
  | (w :: rest, all) => (w, (rest, all))
  | ([], w :: rest) => (w, (rest, w :: rest))
  | ([], []) => (0, ([], []))

/-- A source that also counts the words drawn. -/
def counted {σ : Type} (word : Draw σ UInt32) : Draw (σ × Nat) UInt32 := fun s =>
  let drawn := word s.1
  (drawn.1, (drawn.2, s.2 + 1))

end Words

end Munch
