import Mathlib
import FastAlgebra.Proofs.InverseTable
import FastAlgebra.Proofs.Poly.Basic

/-! Antiderivatives of coefficient lists and of polynomials. Each coefficient is divided by the
degree that it comes to, so there is an antiderivative wherever none of these degrees is zero in the
field. Otherwise the least of them that is zero is the characteristic, and it is named in the
refusal.
-/

namespace FastAlgebra

open Polynomial

variable {F : Type}

/-- There is a value exactly where none of the numbers `1, …, n` is zero in the field. Otherwise the
refusal names the least of them that is, which is the characteristic.
-/
structure Integrates (F : Type) [CoeffField F] [LawfulField F] (n : Nat) {α : Type}
    (result : Except PolyError α)
    : Prop where
  exists_eq_ok_iff : (∃ value, result = .ok value) ↔ ∀ i, 1 ≤ i → i ≤ n → (i : F) ≠ 0
  eq_error_iff
    : ∀ error,
        result = .error error
        ↔ IsLeast {i : Nat | 1 ≤ i ∧ i ≤ n ∧ (i : F) = 0} (ringChar F)
          ∧ error = .zeroDivisor (ringChar F)

namespace Integrates

variable [CoeffField F] [LawfulField F] {n : Nat} {α : Type} {result : Except PolyError α}

theorem of_eq_ok (nonzero : NonzeroBelow F (n + 1)) {value : α} (ok : result = .ok value)
    : Integrates F n result where
  exists_eq_ok_iff := iff_of_true ⟨value, ok⟩ (nonzeroBelow_succ_iff.mp nonzero)
  eq_error_iff error := by
    apply iff_of_false
    · rw [ok]
      exact nofun
    · rintro ⟨⟨⟨positive, within, zero⟩, _⟩, _⟩
      exact nonzeroBelow_succ_iff.mp nonzero _ positive within zero

theorem of_eq_error (small : CharacteristicBelow F (n + 1))
    (refused : result = .error (.zeroDivisor (ringChar F)))
    : Integrates F n result where
  exists_eq_ok_iff := by
    apply iff_of_false
    · rintro ⟨value, ok⟩
      exact nomatch refused.symm.trans ok
    · intro nonzero
      exact nonzeroBelow_iff.mp (nonzeroBelow_succ_iff.mpr nonzero) small
  eq_error_iff error := by
    rw [refused, Except.error.injEq]
    constructor
    · rintro rfl
      exact ⟨isLeast_ringChar small, rfl⟩
    · exact fun named => named.2.symm

end Integrates

-----------------------------------------------------------------------------------------
-- Coefficient lists
-----------------------------------------------------------------------------------------

namespace CoeffList

variable [CoeffField F] [LawfulField F]

/-- Zero, and behind it each coefficient over the degree that it comes to. -/
def antiderivative (a : List F) : List F :=
  0 :: List.zipWith (· * ·) a ((List.range' 1 a.length).map fun i : Nat => (i : F)⁻¹)

theorem length_antiderivative (a : List F) : (antiderivative a).length = a.length + 1 := by
  simp [antiderivative]

theorem coeff_antiderivative_zero (a : List F) : coeff (antiderivative a) 0 = 0 :=
  rfl

theorem coeff_antiderivative_succ (a : List F) (i : Nat)
    : coeff (antiderivative a) (i + 1) = coeff a i * ((i : F) + 1)⁻¹ := by
  rw [antiderivative, coeff_cons_succ]
  rcases Nat.lt_or_ge i a.length with known | past
  · have entry : coeff ((List.range' 1 a.length).map fun j : Nat => (j : F)⁻¹) i
        = ((i : F) + 1)⁻¹ := by
      rw [coeff_eq_getElem (by simpa using known)]
      simp [add_comm]
    rw [coeff_zipWith _ known (by simpa using known), entry]
  · have short : (List.zipWith (· * ·) a
        ((List.range' 1 a.length).map fun j : Nat => (j : F)⁻¹)).length ≤ i := by
      rw [List.length_zipWith]
      exact (Nat.min_le_left _ _).trans past
    rw [coeff_of_length_le short, coeff_of_length_le past, zero_mul]

/-- The derivative takes an antiderivative back. -/
theorem derivative_toPolynomial_antiderivative {a : List F}
    (nonzero : NonzeroBelow F (a.length + 1))
    : Polynomial.derivative (toPolynomial (antiderivative a)) = toPolynomial a := by
  ext i
  rw [Polynomial.coeff_derivative, coeff_toPolynomial, coeff_toPolynomial,
    coeff_antiderivative_succ]
  rcases Nat.lt_or_ge i a.length with known | past
  · rw [mul_assoc, inv_mul_cancel₀ (nonzero.cast_ne_zero (by omega)), mul_one]
  · rw [coeff_of_length_le past, zero_mul, zero_mul]

/-- The antiderivative of a derivative has lost the constant term and nothing else. Only the degrees
of the list itself are divided by.
-/
theorem coeff_antiderivative_of_derivative {a b : List F} (nonzero : NonzeroBelow F a.length)
    (slope : toPolynomial b = Polynomial.derivative (toPolynomial a)) (i : Nat)
    : coeff (antiderivative b) i = coeff (a.set 0 0) i := by
  cases i with
  | zero => cases a <;> rfl
  | succ i =>
      have unchanged : coeff (a.set 0 0) (i + 1) = coeff a (i + 1) := by cases a <;> rfl
      rw [coeff_antiderivative_succ, unchanged, ← coeff_toPolynomial, slope,
        Polynomial.coeff_derivative, coeff_toPolynomial]
      rcases Nat.lt_or_ge (i + 1) a.length with known | past
      · rw [mul_assoc, mul_inv_cancel₀ (nonzero.cast_ne_zero known), mul_one]
      · rw [coeff_of_length_le past, zero_mul, zero_mul]

end CoeffList

-----------------------------------------------------------------------------------------
-- Polynomials
-----------------------------------------------------------------------------------------

namespace Poly

section Field

variable [CoeffField F] [LawfulField F]

/-- Each degree is inverted on its own, by induction on the list. -/
theorem integralCoeffs_eq_ok {a : List F} {i : Nat} (positive : 0 < i)
    (nonzero : NonzeroBelow F (i + a.length))
    : integralCoeffs i a
      = .ok (List.zipWith (· * ·) a ((List.range' i a.length).map fun j : Nat => (j : F)⁻¹)) := by
  induction a generalizing i with
  | nil => rfl
  | cons c rest ih =>
      rw [List.length_cons] at nonzero
      have unit : (i : F) ≠ 0 := by
        rw [← LawfulRing.ofNat_eq_cast]
        exact nonzero i positive (by omega)
      rw [integralCoeffs, LawfulRing.ofNat_eq_cast, LawfulField.inv?_eq_some unit,
        ih (Nat.succ_pos i) (nonzero.mono (by omega))]
      rfl

/-- The first degree that has no inverse is the characteristic, by induction on the list. -/
theorem integralCoeffs_eq_error {a : List F} {i : Nat} (positive : 0 < i) (before : i ≤ ringChar F)
    (reached : ringChar F < i + a.length)
    : integralCoeffs i a = .error (.zeroDivisor (ringChar F)) := by
  induction a generalizing i with
  | nil =>
      rw [List.length_nil] at reached
      omega
  | cons c rest ih =>
      rw [List.length_cons] at reached
      rcases Nat.eq_or_lt_of_le before with last | more
      · have zero : (i : F) = 0 := by rw [ringChar.spec, last]
        rw [integralCoeffs, LawfulRing.ofNat_eq_cast, zero, LawfulField.inv?_zero, ← last]
      · have unit : (i : F) ≠ 0 := by
          rw [Ne, ringChar.spec]
          exact Nat.not_dvd_of_pos_of_lt positive more
        rw [integralCoeffs, LawfulRing.ofNat_eq_cast, LawfulField.inv?_eq_some unit,
          ih (Nat.succ_pos i) more (by omega)]
        rfl

variable {p q : Poly F}

/-- One is not zero, so degree zero is no obstacle. -/
theorem nonzeroBelow_two : NonzeroBelow F 2 := by
  intro i positive below
  obtain rfl : i = 1 := by omega
  rw [LawfulRing.ofNat_eq_cast, Nat.cast_one]
  exact one_ne_zero

/-- Where none of the degrees is zero there is an antiderivative. The zero polynomial is its own. -/
theorem integral_eq_ok (nonzero : NonzeroBelow F (p.degree + 2))
    : p.integral = .ok (ofCoeffs (CoeffList.antiderivative p.coeffs)) := by
  have degrees : 1 + p.coeffs.length = p.degree + 2 := by
    rw [length_coeffs]
    omega
  unfold integral
  split
  · rename_i trivial
    obtain rfl := (isZero_iff p).mp trivial
    refine congrArg Except.ok (toPolynomial_injective ?_)
    rw [coeffs_eq_of_toPolynomial_eq_zero toPolynomial_zero]
    simp [CoeffList.antiderivative, CoeffList.toPolynomial]
  · rw [integralCoeffs_eq_ok Nat.one_pos (degrees ▸ nonzero)]
    rfl

/-- Where the characteristic is among the degrees there is no antiderivative. -/
theorem integral_eq_error (small : CharacteristicBelow F (p.degree + 2))
    : p.integral = .error (.zeroDivisor (ringChar F)) := by
  have degrees : 1 + p.coeffs.length = p.degree + 2 := by
    rw [length_coeffs]
    omega
  have nontrivial : p.isZero = false := by
    rw [← Bool.not_eq_true, isZero_iff]
    rintro rfl
    have single : (zero : Poly F).degree = 0 := by rw [← natDegree_toPolynomial]; simp
    rw [single] at small
    exact nonzeroBelow_iff.mp nonzeroBelow_two small
  have below := small.below
  rw [integral, nontrivial, integralCoeffs_eq_error Nat.one_pos small.positive (by omega)]
  rfl

/-- The degrees that are divided by are those up to one above the degree of the polynomial. -/
theorem integral_integrates (p : Poly F) : Integrates F (p.degree + 1) p.integral := by
  by_cases small : CharacteristicBelow F (p.degree + 2)
  · exact .of_eq_error small (integral_eq_error small)
  · have nonzero := nonzeroBelow_iff.mpr small
    exact .of_eq_ok nonzero (integral_eq_ok nonzero)

/-- The derivative undoes the integral. -/
theorem derivative_of_integral_eq_ok (integrated : p.integral = .ok q) : q.derivative = p := by
  by_cases small : CharacteristicBelow F (p.degree + 2)
  · rw [integral_eq_error small] at integrated
    exact nomatch integrated
  · have nonzero := nonzeroBelow_iff.mpr small
    rw [integral_eq_ok nonzero] at integrated
    obtain rfl := Except.ok.inj integrated
    have listed : NonzeroBelow F (p.coeffs.length + 1) := by
      rw [length_coeffs]
      exact nonzero
    apply toPolynomial_injective
    rw [toPolynomial_derivative, toPolynomial_ofCoeffs,
      CoeffList.derivative_toPolynomial_antiderivative listed]
    rfl

/-- The integral undoes the derivative up to the constant term. The derivative may have lost more
than one degree, and then fewer degrees are divided by.
-/
theorem integral_derivative (nonzero : NonzeroBelow F (p.degree + 1))
    : p.derivative.integral = .ok (ofCoeffs (p.coeffs.set 0 0)) := by
  have lower : p.derivative.degree ≤ p.degree - 1 := by
    rw [← natDegree_toPolynomial, ← natDegree_toPolynomial, toPolynomial_derivative]
    exact natDegree_derivative_le _
  have degrees : NonzeroBelow F (p.derivative.degree + 2) := by
    rcases Nat.eq_zero_or_pos p.degree with constant | positive
    · exact nonzeroBelow_two.mono (by omega)
    · exact nonzero.mono (by omega)
  rw [integral_eq_ok degrees]
  refine congrArg Except.ok (toPolynomial_injective ?_)
  rw [← length_coeffs] at nonzero
  ext i
  rw [toPolynomial_ofCoeffs, toPolynomial_ofCoeffs, CoeffList.coeff_toPolynomial,
    CoeffList.coeff_toPolynomial]
  exact CoeffList.coeff_antiderivative_of_derivative nonzero (toPolynomial_derivative p) i

end Field

section Kernel

variable [KernelField F] [ExactKernels F]

/-- The derivative of a product is the sum of the products with one factor differentiated. -/
theorem exists_derivative_mul_yields (p q : Poly F)
    : ∃ product left right,
        (p.mul q).Yields product
        ∧ (p.derivative.mul q).Yields left
        ∧ (p.mul q.derivative).Yields right
        ∧ product.derivative = left.add right := by
  obtain ⟨product, multiplies, whole⟩ := exists_mul_yields p q
  obtain ⟨left, leftMultiplies, first⟩ := exists_mul_yields p.derivative q
  obtain ⟨right, rightMultiplies, second⟩ := exists_mul_yields p q.derivative
  refine ⟨product, left, right, multiplies, leftMultiplies, rightMultiplies, ?_⟩
  apply toPolynomial_injective
  rw [toPolynomial_derivative, whole, toPolynomial_add, first, second, toPolynomial_derivative,
    toPolynomial_derivative, derivative_mul]

end Kernel

end Poly

end FastAlgebra
