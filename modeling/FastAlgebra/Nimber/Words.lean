import FastAlgebra.Nimber.DigitTable
import FastAlgebra.Residue.Words.RootOfUnity

/-! Products of nimbers on their words, by the table of products. A run has no result if an entry of
the table is missing.
-/

namespace FastAlgebra

namespace NimWord

/-- The positions of the ones in a word. The lowest one is found and taken away until none is left.
-/
def lowestOnes (w : UInt64) : List Nat :=
  if _ : w = 0 then
    []
  else
    (CheckedWord.trailingZeros w.toBitVec).toNat :: lowestOnes (w &&& (w - 1))
termination_by w.toNat
decreasing_by
  rename_i nonzero
  have positive : w.toNat ≠ 0 := fun zero => nonzero (UInt64.toNat_inj.mp zero)
  have reached : (1 : UInt64) ≤ w := UInt64.le_iff_toNat_le.mpr (Nat.pos_of_ne_zero positive)
  rw [UInt64.toNat_and, UInt64.toNat_sub_of_le _ _ reached]
  exact Nat.lt_of_le_of_lt Nat.and_le_right (Nat.sub_one_lt positive)

/-- The sum of the table entries at the pairs of ones. -/
def mul (x y : UInt64) : Option UInt64 := do
  let table ← DigitTable.table?
  (lowestOnes x).foldlM (fun sum i => do
    let row ← table[i]?
    (lowestOnes y).foldlM (fun sum j => do return sum ^^^ (← row[j]?)) sum) 0

/-- The sum of the diagonal entries at the ones. -/
def square (x : UInt64) : Option UInt64 := do
  let table ← DigitTable.table?
  (lowestOnes x).foldlM (fun sum i => do
    let row ← table[i]?
    return sum ^^^ (← row[i]?)) 0

/-- The image of a word is its lowest digit. -/
def ofWord (n : UInt64) : UInt64 :=
  n &&& 1

end NimWord

end FastAlgebra
