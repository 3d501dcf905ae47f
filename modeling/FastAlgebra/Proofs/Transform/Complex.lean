import Mathlib
import FastAlgebra.Proofs.Complex
import FastAlgebra.Proofs.Transform.Correctness

/-! Over the real numbers the complex transform is exact. The roots of unity of all dyadic orders
are directions, and a table of them grows by the angles of the next level.
-/

namespace FastAlgebra.Complex

open CoeffList Polynomial

theorem root_succ (s : Nat) : root (s + 1) = polar 1 (Real.pi / 2 ^ s) := by
  rw [root, pow_succ', mul_div_mul_left _ _ two_ne_zero]

theorem dyadicRoots (levels : Nat) : DyadicRoots root levels where
  first := by rw [root, pow_zero, div_one, polar_two_pi]
  second _ := by rw [root_succ, pow_zero, div_one, polar_pi]
  square s _ := by
    rw [root_succ, root, polar_pow]
    congr 1
    push_cast
    ring

/-- Behind the table come the powers of the root of the next order. -/
theorem rootTable_append {table : Array (Complex ℝ)} {s : Nat}
    (covered : RootTable root table s)
    : RootTable root
        (table ++ (Array.range (2 ^ s)).map fun j : Nat => polar 1 (Real.pi / (2 ^ s : Nat) * j))
        (s + 1) := by
  refine ⟨by simp [covered.size, pow_succ, mul_two], ?_⟩
  intro level below j within
  rcases Nat.lt_or_ge level s with old | last
  · have inside : 2 ^ level + j < 2 ^ s := by
      have next : 2 ^ (level + 1) ≤ 2 ^ s := Nat.pow_le_pow_right (by omega) old
      rw [pow_succ] at next
      omega
    rw [Array.getElem?_append_left (covered.size ▸ inside), covered.power level old j within]
  · obtain rfl : level = s := by omega
    rw [Array.getElem?_append_right (covered.size ▸ Nat.le_add_right _ j), covered.size,
      Nat.add_sub_cancel_left, root_succ, polar_pow]
    simp [within]

theorem inverseLength_eq (n : Nat) : TransformScalar.inverseLength n = ofReal (1 / (n : ℝ)) :=
  rfl

theorem inverseLength_unscales {n : Nat} (positive : 0 < n)
    : Unscales (TransformScalar.inverseLength n : Complex ℝ) n := by
  have nonzero : (n : ℝ) ≠ 0 := by positivity
  rw [Unscales, inverseLength_eq]
  ext <;> simp [ofReal, nonzero]

theorem scalarLaws : ScalarLaws (Complex ℝ) root 63 where
  zero_eq := rfl
  one_eq := rfl
  add_eq := rfl
  sub_eq := rfl
  mul_eq := rfl
  roots := dyadicRoots 63
  maxLength_eq := powerOfTwo_eq 63
  inverseLength_unscales s _ := inverseLength_unscales (Nat.two_pow_pos s)
  exists_extendRoots_eq _ _ _ _ covered := ⟨_, rfl, rootTable_append covered⟩

noncomputable instance : LawfulScalar (Complex ℝ) where
  root := root
  levels := 63
  laws := scalarLaws

/-- There is a plan for every length that memory can hold. -/
theorem exists_plan_yields {length : Nat} (addressable : length ≤ 2 ^ 63)
    : ∃ s t plan, length.nextPowerOfTwo = 2 ^ s ∧ s ≤ 63 ∧ s ≤ t
        ∧ (Plan.withCapacity (max (2 ^ s) 2) : Kernel (Plan (Complex ℝ))).Yields plan
        ∧ plan.Tables t := by
  obtain ⟨s, padded⟩ := exists_nextPowerOfTwo_eq length
  have supported := nextPowerOfTwo_le addressable
  rw [padded, Nat.pow_le_pow_iff_right (by omega)] at supported
  obtain ⟨t, plan, covered, reserved, tables⟩ :=
    Plan.exists_withCapacity_yields (T := Complex ℝ) supported
  exact ⟨s, t, plan, padded, supported, covered, reserved, tables⟩

-----------------------------------------------------------------------------------------
-- Mirrored values
-----------------------------------------------------------------------------------------

/-- Mirroring an exponent turns a power of a root into its conjugate. -/
theorem conj_root_pow {s i : Nat} (h : i < 2 ^ s)
    : (root s ^ i).conj = root s ^ mirror (2 ^ s) i := by
  have order := (dyadicRoots s).pow_order (Nat.le_refl s)
  have inverse : (root s).conj * root s = 1 := conj_polar_mul _
  apply left_inv_eq_right_inv (a := root s ^ i)
  · rw [← conjHom_apply, map_pow, conjHom_apply, ← mul_pow, inverse, one_pow]
  · rw [mirror, ← pow_eq_pow_mod (2 ^ s - i) order, ← pow_add, Nat.add_sub_cancel' h.le, order]

/-- The values of a polynomial at the powers of the root, scaled and mirrored. -/
noncomputable def mirroredValues (s : Nat) (p : (Complex ℝ)[X]) : List (Complex ℝ) :=
  (List.range (2 ^ s)).map fun i =>
    (p * C (TransformScalar.inverseLength (2 ^ s))).eval (root s ^ mirror (2 ^ s) i)

theorem length_mirroredValues (s : Nat) (p : (Complex ℝ)[X])
    : (mirroredValues s p).length = 2 ^ s := by
  rw [mirroredValues, List.length_map, List.length_range]

/-- Such values are transformed into the coefficients. -/
theorem toPolynomial_transform_mirroredValues {plan : Plan (Complex ℝ)} {t s : Nat}
    (tables : plan.Tables t) (covered : s ≤ t) (supported : s ≤ 63) {p : (Complex ℝ)[X]}
    (small : p.degree < (2 ^ s : Nat))
    : toPolynomial (plan.transform (mirroredValues s p)) = p := by
  obtain ⟨image, same⟩ : ∃ image, image = (List.range (2 ^ s)).map fun i =>
      (p * C (TransformScalar.inverseLength (2 ^ s))).eval (root s ^ i) := ⟨_, rfl⟩
  have length : image.length = 2 ^ s := by simp [same]
  have values : Values (root s) (2 ^ s) (p * C (TransformScalar.inverseLength (2 ^ s))) image := by
    refine ⟨length, ?_⟩
    intro i below
    rw [coeff_eq_getElem (by rwa [length])]
    simp [same]
  have mirrored : mirroredValues s p = reflect image := by
    apply ext_coeff (by simp [mirroredValues, length])
    intro i inside
    have below : i < 2 ^ s := by simpa [mirroredValues] using inside
    rw [coeff_reflect (by rwa [length]), length, values.value _ (Nat.mod_lt _ (by omega)),
      coeff_eq_getElem inside]
    simp [mirroredValues, mirror]
  rw [mirrored]
  exact tables.toPolynomial_transform_reflect covered supported small values

end FastAlgebra.Complex
