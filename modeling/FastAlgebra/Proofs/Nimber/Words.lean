import Mathlib
import FastAlgebra.Nimber.Words
import FastAlgebra.Proofs.Entries
import FastAlgebra.Proofs.Nimber.DigitTable
import FastAlgebra.Proofs.Residue.Words.RootOfUnity

/-! Products of words by the table of products are the products of nimbers, so the words are a field
under them, and the product is the least word that its definition leaves. Squares are additive,
which is why the diagonal of the table is enough for them.
-/

namespace FastAlgebra

-----------------------------------------------------------------------------------------
-- Words by the table
-----------------------------------------------------------------------------------------

/-- A choice from the first numbers begins with the least that is chosen, by induction on how many
numbers there are.
-/
theorem filter_range_eq_cons {p : Nat → Bool} {n k : Nat} (inside : k < n) (one : p k = true)
    (zeros : ∀ i < k, p i = false)
    : (List.range n).filter p = k :: (List.range n).filter fun i => p i && decide (i ≠ k) := by
  induction n with
  | zero => exact absurd inside (Nat.not_lt_zero k)
  | succ n ih =>
      rw [List.range_succ, List.filter_append, List.filter_append]
      rcases Nat.lt_succ_iff_lt_or_eq.mp inside with below | rfl
      · rw [ih below, List.cons_append]
        simp [List.filter_cons, below.ne']
      · have before {q : Nat → Bool} (none : ∀ i < k, q i = false) : (List.range k).filter q = [] :=
          List.filter_eq_nil_iff.mpr fun i member => by simp [none i (List.mem_range.mp member)]
        rw [before zeros, before fun i below => by rw [zeros i below, Bool.false_and]]
        simp [one]

namespace NimWord

open NimLevel

/-- Taking away the lowest one again and again meets all ones in their order, by induction on the
word.
-/
theorem lowestOnes_eq (w : UInt64) : lowestOnes w = onesOf w := by
  fun_induction lowestOnes w with
  | case1 => rfl
  | case2 w nonzero ih =>
      have positive : w.toNat ≠ 0 := fun zero => nonzero (UInt64.toNat_inj.mp zero)
      have reached : (1 : UInt64) ≤ w := UInt64.le_iff_toNat_le.mpr (Nat.pos_of_ne_zero positive)
      have word : w.toBitVec ≠ 0 := fun zero => nonzero (UInt64.toBitVec_inj.mp zero)
      obtain ⟨place, inside⟩ := CheckedWord.toNat_trailingZeros word
      rw [UInt64.toNat_toBitVec] at place
      rw [place] at inside ⊢
      obtain ⟨one, zeros⟩ := testBit_factorsOfTwo positive
      have cleared : (w.toNat &&& (w.toNat - 1)).testBit
          = fun i => w.toNat.testBit i && decide (i ≠ factorsOfTwo w.toNat) :=
        funext (testBit_land_pred positive)
      rw [ih, onesOf_eq, onesOf_eq, filter_range_eq_cons inside one zeros, UInt64.toNat_and,
        UInt64.toNat_sub_of_le _ _ reached, UInt64.toNat_one, cleared]

/-- The table has a row for each position, and the row has an entry for each. -/
theorem exists_row_eq {i : Nat} (inside : i < 64)
    : ∃ row, nimTable[i]? = some row ∧ ∀ j < 64, row[j]? = some (nimTableEntry i j) := by
  have size : nimTable.size = 64 := by simp [nimTable]
  refine ⟨nimTable.getD i #[], getElem?_eq_getD (size ▸ inside) #[], ?_⟩
  intro j below
  have width : (nimTable.getD i #[]).size = 64 := by
    simp [nimTable, Array.getD_eq_getD_getElem?, inside]
  exact getElem?_eq_getD (width ▸ below) 0

theorem mul_eq (x y : Nimber) : mul x.word y.word = some (x * y).word := by
  rw [mul, DigitTable.table?_eq, Option.bind_eq_bind, Option.bind_some, lowestOnes_eq,
    lowestOnes_eq]
  refine foldlM_eq_some ?_ 0
  intro sum i member
  obtain ⟨row, found, entries⟩ := exists_row_eq (lt_of_mem_onesOf member)
  rw [found, Option.bind_eq_bind, Option.bind_some]
  refine foldlM_eq_some ?_ sum
  intro sum j member
  rw [entries j (lt_of_mem_onesOf member)]
  rfl

theorem square_eq (x : Nimber) : square x.word = some x.square.word := by
  rw [square, DigitTable.table?_eq, Option.bind_eq_bind, Option.bind_some, lowestOnes_eq]
  refine foldlM_eq_some ?_ 0
  intro sum i member
  have inside := lt_of_mem_onesOf member
  obtain ⟨row, found, entries⟩ := exists_row_eq inside
  rw [found, Option.bind_eq_bind, Option.bind_some, entries i inside]
  rfl

theorem ofWord_eq (n : UInt64)
    : (⟨ofWord n⟩ : Nimber) = CoeffRing.ofNat n.toNat := by
  apply congrArg Nimber.mk
  rw [ofWord, ← UInt64.toNat_inj, UInt64.toNat_and, UInt64.toNat_one, Nat.and_one_is_mod,
    UInt64.toNat_ofNat_of_lt' (by simp only [UInt64.size]; omega)]

end NimWord

namespace Nimber

/-- Squares are additive, so the diagonal of the table makes up the product of a word with itself.
-/
theorem square_eq_mul_self (x : Nimber) : x.square = x * x := by
  obtain ⟨K, field, value, level⟩ := exists_nimLevel 6
  apply level.value_injective
  simp only [level.value_square, level.value_mul]

-----------------------------------------------------------------------------------------
-- Words as a field
-----------------------------------------------------------------------------------------

/-- The words are a field: the exclusive or is its sum, and the product by the table, which has no
missing entry, is commutative, associative and distributive with identity one. Every word but zero
has an inverse, and zero has none. So there are no divisors of zero, and a word times its power to
the number of units is the word.
-/
theorem field_laws
    : (∀ x y : Nimber, (x + y).word = x.word ^^^ y.word)
      ∧ (∀ x y : Nimber, NimWord.mul x.word y.word = some (x * y).word)
      ∧ (∀ x y : Nimber, x * y = y * x)
      ∧ (∀ x y z : Nimber, x * y * z = x * (y * z))
      ∧ (∀ x y z : Nimber, x * (y + z) = x * y + x * z)
      ∧ (∀ x : Nimber, 1 * x = x)
      ∧ (∀ x : Nimber, x ≠ 0 → ∃ v, x.inv? = some v ∧ x * v = 1)
      ∧ (0 : Nimber).inv? = none
      ∧ (∀ x y : Nimber, x * y = 0 → x = 0 ∨ y = 0)
      ∧ (∀ x : Nimber, x * x.pow (2 ^ 64 - 1) = x) :=
  ⟨fun _ _ => rfl, NimWord.mul_eq, LawfulRing.mul_comm, LawfulRing.mul_assoc,
    LawfulRing.mul_add, LawfulRing.one_mul, LawfulField.inv?_of_ne_zero, rfl,
    fun _ _ => mul_eq_zero.mp, mul_pow_units⟩

theorem field_laws_two
    : (⟨2⟩ : Nimber) ≠ 0 ∧ (⟨2⟩ : Nimber).inv? = some ⟨3⟩
      ∧ (0 * ⟨2⟩ : Nimber) = 0 ∧ ((0 : Nimber) = 0 ∨ (⟨2⟩ : Nimber) = 0) := by
  obtain ⟨_, _, _, _, _, _, inverts, _, divisors, _⟩ := field_laws
  have nonzero : (⟨2⟩ : Nimber) ≠ 0 := by decide
  have product : (⟨2⟩ * ⟨3⟩ : Nimber) = 1 := by decide +kernel
  have zero : (0 * ⟨2⟩ : Nimber) = 0 := by decide
  obtain ⟨v, found, inverse⟩ := inverts ⟨2⟩ nonzero
  have same : v = ⟨3⟩ := mul_left_cancel₀ nonzero (inverse.trans product.symm)
  exact ⟨nonzero, same ▸ found, zero, divisors 0 ⟨2⟩ zero⟩

/-- The product by the table is the least number that is not a sum `x' y + x y' + x' y'` of products
with a smaller `x'` and a smaller `y'`.
-/
theorem isLeast_mul (x y : Nimber)
    : NimWord.mul x.word y.word = some (x * y).word
      ∧ IsLeast
          {n : Nat | ¬ ∃ x' y' : Nimber, x'.word < x.word ∧ y'.word < y.word
            ∧ n = (x' * y + x * y' + x' * y').word.toNat}
          (x * y).word.toNat := by
  refine ⟨NimWord.mul_eq x y, ?_, ?_⟩
  · rintro ⟨x', y', hx, hy, same⟩
    exact mul_ne_sum_products hx hy same
  · intro n excluded
    by_contra above
    exact excluded (exists_eq_sum_products (not_le.mp above))

end Nimber

end FastAlgebra
