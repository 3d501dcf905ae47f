import Mathlib
import FastAlgebra.Nimber
import FastAlgebra.Proofs.Dyadic

/-! The tower of fields behind the nim-product. With `F = 2 ^ 2 ^ k`, a number of the next level is
`a F + b`, and the product makes `F` a root of `z ^ 2 + z = F / 2` over the field of level `k`. No
element of that field is such a root, so each level is a quadratic extension of the one below.
-/

namespace FastAlgebra

-----------------------------------------------------------------------------------------
-- Halves of a number
-----------------------------------------------------------------------------------------

/-- The upper half of two joined halves. -/
theorem shiftLeft_xor_shiftRight {high low width : Nat} (h : low < 2 ^ width)
    : (high <<< width ^^^ low) >>> width = high := by
  rw [Nat.shiftRight_xor_distrib, Nat.shiftLeft_shiftRight, Nat.shiftRight_eq_div_pow,
    Nat.div_eq_of_lt h, Nat.xor_zero]

/-- The lower half of two joined halves. -/
theorem shiftLeft_xor_mod {high low width : Nat} (h : low < 2 ^ width)
    : (high <<< width ^^^ low) % 2 ^ width = low := by
  rw [Nat.xor_mod_two_pow, Nat.shiftLeft_eq, Nat.mul_mod_left, Nat.zero_xor, Nat.mod_eq_of_lt h]

theorem two_pow_two_pow_le {j k : Nat} (higher : j ≤ k) : 2 ^ 2 ^ j ≤ 2 ^ 2 ^ k :=
  Nat.pow_le_pow_right Nat.two_pos (Nat.pow_le_pow_right Nat.two_pos higher)

theorem one_lt_two_pow_two_pow (k : Nat) : 1 < 2 ^ 2 ^ k :=
  Nat.one_lt_two_pow (Nat.two_pow_pos k).ne'

theorem shiftRight_lt {x k : Nat} (h : x < 2 ^ 2 ^ (k + 1)) : x >>> 2 ^ k < 2 ^ 2 ^ k := by
  rw [Nat.shiftRight_eq_div_pow]
  apply Nat.div_lt_of_lt_mul
  rwa [← pow_add, ← two_mul, ← pow_succ']

/-- Two joined halves of one level are a number of the next level. -/
theorem shiftLeft_xor_lt {high low k : Nat} (hh : high < 2 ^ 2 ^ k) (hl : low < 2 ^ 2 ^ k)
    : high <<< 2 ^ k ^^^ low < 2 ^ 2 ^ (k + 1) := by
  have wide : 2 ^ 2 ^ (k + 1) = 2 ^ 2 ^ k * 2 ^ 2 ^ k := by
    rw [← pow_add, ← two_mul, ← pow_succ']
  apply Nat.xor_lt_two_pow
  · rw [Nat.shiftLeft_eq, wide]
    exact Nat.mul_lt_mul_of_pos_right hh (Nat.two_pow_pos _)
  · rw [wide]
    exact hl.trans_le (Nat.le_mul_of_pos_left _ (Nat.two_pow_pos _))

/-- Half of the number that comes after a level is a number of the level. -/
theorem two_pow_pred_lt (k : Nat) : 2 ^ (2 ^ k - 1) < 2 ^ 2 ^ k :=
  Nat.pow_lt_pow_right (by omega) (Nat.sub_lt (Nat.two_pow_pos k) Nat.one_pos)

/-- A level is closed under the product, by induction on the level. -/
theorem nimProduct_lt {k x y : Nat} (hx : x < 2 ^ 2 ^ k) (hy : y < 2 ^ 2 ^ k)
    : nimProduct k x y < 2 ^ 2 ^ k := by
  induction k generalizing x y with
  | zero => exact Nat.and_lt_two_pow x hy
  | succ k ih =>
      have ha := shiftRight_lt hx
      have hb := Nat.mod_lt x (Nat.two_pow_pos (2 ^ k))
      have hc := shiftRight_lt hy
      have hd := Nat.mod_lt y (Nat.two_pow_pos (2 ^ k))
      rw [nimProduct]
      split
      · exact Nat.two_pow_pos _
      · simp only [powerOfTwo_eq]
        apply shiftLeft_xor_lt
        · exact Nat.xor_lt_two_pow (ih ha hc) (Nat.xor_lt_two_pow (ih ha hd) (ih hb hc))
        · exact Nat.xor_lt_two_pow (ih hb hd) (ih (ih ha hc) (two_pow_pred_lt k))

-----------------------------------------------------------------------------------------
-- The fields of the tower
-----------------------------------------------------------------------------------------

/-- The numbers of a level name the elements of a field, one number for each element; the exclusive
or is the sum of the field and the nim-product its product. No element is a root of the polynomial
that the next level adjoins one of.
-/
structure NimLevel (k : Nat) (K : Type) [Field K] (value : Nat → K) : Prop where
  injective : ∀ x < 2 ^ 2 ^ k, ∀ y < 2 ^ 2 ^ k, value x = value y → x = y
  surjective : ∀ z : K, ∃ x < 2 ^ 2 ^ k, value x = z
  one : value 1 = 1
  xor : ∀ x < 2 ^ 2 ^ k, ∀ y < 2 ^ 2 ^ k, value (x ^^^ y) = value x + value y
  product : ∀ x < 2 ^ 2 ^ k, ∀ y < 2 ^ 2 ^ k, value (nimProduct k x y) = value x * value y
  rootless : ∀ z : K, z ^ 2 + z ≠ value (2 ^ (2 ^ k - 1))

namespace NimLevel

variable {k : Nat} {K : Type} [Field K] {value : Nat → K}

theorem zero (level : NimLevel k K value) : value 0 = 0 := by
  have twice := level.xor 0 (Nat.two_pow_pos _) 0 (Nat.two_pow_pos _)
  rwa [Nat.xor_self, left_eq_add] at twice

/-- One is its own negative. -/
theorem two_eq_zero (level : NimLevel k K value) : (2 : K) = 0 := by
  have large := one_lt_two_pow_two_pow k
  have twice := level.xor 1 large 1 large
  rw [Nat.xor_self, level.zero, level.one, one_add_one_eq_two] at twice
  exact twice.symm

/-- The numbers zero and one are the field of two elements. -/
theorem base : NimLevel 0 (ZMod 2) Nat.cast where
  injective x hx y hy same := by
    have small : x < 2 ∧ y < 2 := ⟨hx, hy⟩
    rwa [ZMod.natCast_eq_natCast_iff', Nat.mod_eq_of_lt small.1, Nat.mod_eq_of_lt small.2] at same
  surjective z := ⟨z.val, ZMod.val_lt z, ZMod.natCast_zmod_val z⟩
  one := Nat.cast_one
  xor x hx y hy := by
    have small : x < 2 ∧ y < 2 := ⟨hx, hy⟩
    obtain ⟨rfl | rfl, rfl | rfl⟩ : (x = 0 ∨ x = 1) ∧ (y = 0 ∨ y = 1) := by omega
    all_goals decide
  product x hx y hy := by
    have small : x < 2 ∧ y < 2 := ⟨hx, hy⟩
    obtain ⟨rfl | rfl, rfl | rfl⟩ : (x = 0 ∨ x = 1) ∧ (y = 0 ∨ y = 1) := by omega
    all_goals decide
  rootless := by decide

/-- The polynomial of the next level has no root, in the form that extensions ask for. -/
theorem sq_ne (level : NimLevel k K value) (z : K)
    : z ^ 2 ≠ value (2 ^ (2 ^ k - 1)) + 1 * z := by
  intro root
  apply level.rootless z
  rw [root, one_mul, add_assoc, ← two_mul, level.two_eq_zero, zero_mul, add_zero]

/-- The number of the next level whose halves are given. -/
private theorem exists_halves {high low : Nat} (hh : high < 2 ^ 2 ^ k) (hl : low < 2 ^ 2 ^ k)
    : ∃ x < 2 ^ 2 ^ (k + 1), x % 2 ^ 2 ^ k = low ∧ x >>> 2 ^ k = high :=
  ⟨_, shiftLeft_xor_lt hh hl, shiftLeft_xor_mod hl, shiftLeft_xor_shiftRight hl⟩

/-- The product of two numbers of the next level, by its halves. -/
private theorem value_nimProduct_succ (level : NimLevel k K value) {x y : Nat}
    (hx : x < 2 ^ 2 ^ (k + 1))
    (hy : y < 2 ^ 2 ^ (k + 1)) (positive : ¬ (x = 0 ∨ y = 0))
    : value (nimProduct (k + 1) x y % 2 ^ 2 ^ k)
          = value (x % 2 ^ 2 ^ k) * value (y % 2 ^ 2 ^ k)
            + value (x >>> 2 ^ k) * value (y >>> 2 ^ k) * value (2 ^ (2 ^ k - 1))
      ∧ value (nimProduct (k + 1) x y >>> 2 ^ k)
          = value (x >>> 2 ^ k) * value (y >>> 2 ^ k)
            + (value (x >>> 2 ^ k) * value (y % 2 ^ 2 ^ k)
              + value (x % 2 ^ 2 ^ k) * value (y >>> 2 ^ k)) := by
  have ha := shiftRight_lt hx
  have hb := Nat.mod_lt x (Nat.two_pow_pos (2 ^ k))
  have hc := shiftRight_lt hy
  have hd := Nat.mod_lt y (Nat.two_pow_pos (2 ^ k))
  have half := two_pow_pred_lt k
  have hac := nimProduct_lt ha hc
  have had := nimProduct_lt ha hd
  have hbc := nimProduct_lt hb hc
  have hbd := nimProduct_lt hb hd
  rw [nimProduct, if_neg positive]
  simp only [powerOfTwo_eq]
  rw [shiftLeft_xor_mod (Nat.xor_lt_two_pow hbd (nimProduct_lt hac half)),
    shiftLeft_xor_shiftRight (Nat.xor_lt_two_pow hbd (nimProduct_lt hac half)),
    level.xor _ hbd _ (nimProduct_lt hac half), level.xor _ hac _ (Nat.xor_lt_two_pow had hbc),
    level.xor _ had _ hbc, level.product _ hb _ hd, level.product _ hac _ half,
    level.product _ ha _ hc, level.product _ ha _ hd, level.product _ hb _ hc]
  exact ⟨rfl, rfl⟩

/-- The next level adjoins a root. Its elements are given by the halves of the numbers. -/
theorem next (level : NimLevel k K value)
    [Fact (∀ z : K, z ^ 2 ≠ value (2 ^ (2 ^ k - 1)) + 1 * z)]
    : NimLevel (k + 1) (QuadraticAlgebra K (value (2 ^ (2 ^ k - 1))) 1)
        (fun x => ⟨value (x % 2 ^ 2 ^ k), value (x >>> 2 ^ k)⟩) where
  injective x hx y hy same := by
    obtain ⟨low, high⟩ := QuadraticAlgebra.mk.inj same
    have lower := level.injective _ (Nat.mod_lt x (Nat.two_pow_pos _)) _
      (Nat.mod_lt y (Nat.two_pow_pos _)) low
    have upper := level.injective _ (shiftRight_lt hx) _ (shiftRight_lt hy) high
    rw [Nat.shiftRight_eq_div_pow, Nat.shiftRight_eq_div_pow] at upper
    rw [← Nat.div_add_mod x (2 ^ 2 ^ k), upper, lower, Nat.div_add_mod]
  surjective z := by
    obtain ⟨low, hl, lowValue⟩ := level.surjective z.re
    obtain ⟨high, hh, highValue⟩ := level.surjective z.im
    obtain ⟨x, hx, lower, upper⟩ := exists_halves hh hl
    refine ⟨x, hx, ?_⟩
    rw [lower, upper, lowValue, highValue]
  one := by
    have small := one_lt_two_pow_two_pow k
    rw [Nat.mod_eq_of_lt small, Nat.shiftRight_eq_div_pow, Nat.div_eq_of_lt small, level.one,
      level.zero]
    rfl
  xor x hx y hy := by
    rw [Nat.xor_mod_two_pow, Nat.shiftRight_xor_distrib,
      level.xor _ (Nat.mod_lt x (Nat.two_pow_pos _)) _ (Nat.mod_lt y (Nat.two_pow_pos _)),
      level.xor _ (shiftRight_lt hx) _ (shiftRight_lt hy)]
    rfl
  product x hx y hy := by
    by_cases zero : x = 0 ∨ y = 0
    · rw [nimProduct, if_pos zero]
      rcases zero with rfl | rfl
      · ext <;> simp [level.zero]
      · ext <;> simp [level.zero]
    · obtain ⟨low, high⟩ := level.value_nimProduct_succ hx hy zero
      rw [low, high]
      ext
      · simp only [QuadraticAlgebra.re_mul]
        ring
      · simp only [QuadraticAlgebra.im_mul]
        ring
  rootless z root := by
    have exponent : 2 ^ (k + 1) - 1 = 2 ^ k + (2 ^ k - 1) := by
      have := Nat.two_pow_pos k
      omega
    have upper : 2 ^ (2 ^ (k + 1) - 1) >>> 2 ^ k = 2 ^ (2 ^ k - 1) := by
      rw [exponent, pow_add, Nat.shiftRight_eq_div_pow, Nat.mul_div_cancel_left _
        (Nat.two_pow_pos _)]
    apply level.rootless z.im
    have imaginary := congrArg QuadraticAlgebra.im root
    simp only [sq, QuadraticAlgebra.im_add, QuadraticAlgebra.im_mul, upper] at imaginary
    refine Eq.trans ?_ imaginary
    linear_combination (-z.re * z.im) * level.two_eq_zero

/-- The units of a level number one less than its elements. -/
theorem pow_eq_one (level : NimLevel k K value) {z : K} (nonzero : z ≠ 0)
    : z ^ (2 ^ 2 ^ k - 1) = 1 := by
  have bijective : Function.Bijective (fun i : Fin (2 ^ 2 ^ k) => value i) := by
    refine ⟨fun i j same => Fin.ext (level.injective i i.isLt j j.isLt same), fun z => ?_⟩
    obtain ⟨x, below, named⟩ := level.surjective z
    exact ⟨⟨x, below⟩, named⟩
  have : Fintype K := Fintype.ofBijective _ bijective
  have card := Fintype.card_of_bijective bijective
  rw [Fintype.card_fin] at card
  rw [card]
  exact FiniteField.pow_card_sub_one_eq_one z nonzero

end NimLevel

/-- Every level names a field, by induction on the level. -/
theorem exists_nimLevel (k : Nat)
    : ∃ (K : Type) (_ : Field K) (value : Nat → K), NimLevel k K value := by
  induction k with
  | zero => exact ⟨ZMod 2, inferInstance, Nat.cast, .base⟩
  | succ k ih =>
      obtain ⟨K, field, value, level⟩ := ih
      have : Fact (∀ z : K, z ^ 2 ≠ value (2 ^ (2 ^ k - 1)) + 1 * z) := ⟨level.sq_ne⟩
      exact ⟨_, inferInstance, _, level.next⟩

end FastAlgebra
