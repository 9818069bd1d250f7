/-!
# The alphabet of the tables

A deterministic table has one column per printable ASCII symbol, the 95 codes
from 32 to 126. `index?` gives the column of a code and `symbol` the byte of a
column; `index?_symbol` and `symbol_of_index?` say that they undo each other.
Every other code, the newline included, has no column and therefore never an
edge.
-/

namespace Munch

/-- A column of a table: one of the 95 printable symbols. -/
abbrev Column := Fin 95

namespace Alphabet

/-- The column of a code, if it is a symbol of the alphabet. It is asked with
the code of a byte as well as with the code point of a character: the two agree
on ASCII, and beyond ASCII neither has a column. -/
def index? (code : Nat) : Option Column :=
  if h : 32 ≤ code ∧ code ≤ 126 then some ⟨code - 32, by omega⟩ else none

/-- The byte that stands over a column. -/
def symbol (i : Column) : UInt8 :=
  UInt8.ofNat (32 + i)

/-- All symbols, ascending. -/
def symbols : List UInt8 :=
  (List.finRange 95).map symbol

/-- How a byte is written in a listing of edges: the space and the newline are
spelled out, any other byte is the character with that code point. -/
def label (b : UInt8) : String :=
  if b = 32 then "space"
  else if b = 10 then "\\n"
  else String.singleton (Char.ofNat b.toNat)

/-! ## Columns and symbols -/

theorem toNat_symbol (i : Column) : (symbol i).toNat = 32 + i := by
  have := i.isLt
  simp only [symbol, UInt8.toNat_ofNat']
  omega

theorem index?_eq_some_iff (code : Nat) (i : Column) : index? code = some i ↔ code = 32 + i := by
  have := i.isLt
  unfold index?
  split
  · simp only [Option.some.injEq, Fin.ext_iff]
    omega
  · simp only [reduceCtorEq, false_iff]
    omega

theorem index?_eq_none_iff (code : Nat) : index? code = none ↔ code < 32 ∨ 126 < code := by
  unfold index?
  split <;> simp <;> omega

theorem index?_symbol (i : Column) : index? (symbol i).toNat = some i :=
  (index?_eq_some_iff _ i).mpr (toNat_symbol i)

theorem symbol_of_index? {b : UInt8} {i : Column} (h : index? b.toNat = some i) :
    symbol i = b := by
  rw [index?_eq_some_iff] at h
  exact UInt8.toNat_inj.mp (by rw [toNat_symbol, h])

theorem symbol_lt_symbol {i j : Column} (h : i < j) : symbol i < symbol j := by
  rw [UInt8.lt_iff_toNat_lt, toNat_symbol, toNat_symbol]
  exact Nat.add_lt_add_left h 32

theorem mem_symbols {b : UInt8} : b ∈ symbols ↔ 32 ≤ b.toNat ∧ b.toNat ≤ 126 := by
  simp only [symbols, List.mem_map, List.mem_finRange, true_and]
  constructor
  · rintro ⟨i, rfl⟩
    have := i.isLt
    rw [toNat_symbol]
    omega
  · intro h
    refine ⟨⟨b.toNat - 32, by omega⟩, UInt8.toNat_inj.mp ?_⟩
    rw [toNat_symbol]
    simp only
    omega

theorem index?_eq_none_iff_not_mem {b : UInt8} : index? b.toNat = none ↔ b ∉ symbols := by
  rw [index?_eq_none_iff, mem_symbols]
  omega

end Alphabet

end Munch
