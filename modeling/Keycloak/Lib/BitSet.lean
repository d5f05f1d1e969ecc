import Mathlib.Data.Finset.Lattice.Fold
import Mathlib.Order.Lattice.Nat

/-!
# Growing sets of bits

A finite set of natural numbers with the operation that looks for the next number not
in it.
-/

namespace BitSet

/-- The first number from `index` on that is not in the set, among the next `fuel`. -/
def nextClearBitFrom (bits : Finset Nat) : Nat → Nat → Nat
  | 0, index => index
  | fuel + 1, index =>
      if index ∈ bits then nextClearBitFrom bits fuel (index + 1) else index

/-- The first number from `index` on that is not in the set; all beyond the largest
element are clear. -/
def nextClearBit (bits : Finset Nat) (index : Nat) : Nat :=
  nextClearBitFrom bits (bits.sup id + 1) index

variable {bits : Finset Nat} {fuel index : Nat}

theorem le_nextClearBitFrom : index ≤ nextClearBitFrom bits fuel index := by
  induction fuel generalizing index with
  | zero => exact Nat.le_refl index
  | succ fuel ih =>
      rw [nextClearBitFrom]
      split
      · exact Nat.le_trans (Nat.le_succ index) ih
      · exact Nat.le_refl index

theorem mem_of_lt_nextClearBitFrom {j : Nat} (hle : index ≤ j)
    (hlt : j < nextClearBitFrom bits fuel index) : j ∈ bits := by
  induction fuel generalizing index with
  | zero =>
      rw [nextClearBitFrom] at hlt
      omega
  | succ fuel ih =>
      rw [nextClearBitFrom] at hlt
      split at hlt
      · rename_i hmem
        rcases Nat.eq_or_lt_of_le hle with rfl | hlt'
        · exact hmem
        · exact ih hlt' hlt
      · omega

theorem nextClearBitFrom_notMem (hfuel : bits.sup id < index + fuel) :
    nextClearBitFrom bits fuel index ∉ bits := by
  induction fuel generalizing index with
  | zero =>
      intro hmem
      have hle : index ≤ bits.sup id := Finset.le_sup (f := id) hmem
      omega
  | succ fuel ih =>
      rw [nextClearBitFrom]
      split
      · exact ih (by omega)
      · assumption

theorem le_nextClearBit (bits : Finset Nat) (index : Nat) : index ≤ nextClearBit bits index :=
  le_nextClearBitFrom

theorem nextClearBit_notMem (bits : Finset Nat) (index : Nat) :
    nextClearBit bits index ∉ bits :=
  nextClearBitFrom_notMem (by omega)

theorem mem_of_lt_nextClearBit {j : Nat} (hle : index ≤ j) (hlt : j < nextClearBit bits index) :
    j ∈ bits :=
  mem_of_lt_nextClearBitFrom hle hlt

/-- Below a bound that is the number of elements, all bits are set when no element is
beyond the bound. -/
theorem card_eq_iff {n : Nat} (hbound : ∀ j ∈ bits, j < n) :
    bits.card = n ↔ ∀ j < n, j ∈ bits := by
  have hsub : bits ⊆ Finset.range n := fun j hj => Finset.mem_range.mpr (hbound j hj)
  constructor
  · intro hcard j hj
    have heq : bits = Finset.range n :=
      Finset.eq_of_subset_of_card_le hsub (by rw [Finset.card_range, hcard])
    rw [heq]
    exact Finset.mem_range.mpr hj
  · intro hall
    have heq : bits = Finset.range n :=
      Finset.Subset.antisymm hsub fun j hj => hall j (Finset.mem_range.mp hj)
    rw [heq, Finset.card_range]

end BitSet
