import Mathlib
import FastAlgebra.Series.Basic
import FastAlgebra.Proofs.Antiderivative
import FastAlgebra.Proofs.InverseTable
import FastAlgebra.Proofs.KernelField

/-! Power series to a precision, as polynomials up to a power of the variable. Each operation is
described by a precision and by the polynomial with which its result agrees below that precision.
-/

namespace FastAlgebra.Series

open Polynomial

-----------------------------------------------------------------------------------------
-- Precisions
-----------------------------------------------------------------------------------------

theorem precision_truncate {R : Type} (a : Series R) (n : Nat)
    : (a.truncate n).precision = min n a.precision :=
  List.length_take

theorem truncate_precision {R : Type} (a : Series R) : a.truncate a.precision = a :=
  congrArg mk List.take_length

theorem precision_add {R : Type} [CoeffRing R] (a b : Series R)
    : (a.add b).precision = min a.precision b.precision :=
  List.length_zipWith

-----------------------------------------------------------------------------------------
-- Series as polynomials
-----------------------------------------------------------------------------------------

section Ring

variable {R : Type} [CoeffRing R] [LawfulRing R]

/-- The polynomial of the known terms. -/
noncomputable def toPolynomial (a : Series R) : R[X] :=
  CoeffList.toPolynomial a.coeffs

theorem coeff_toPolynomial (a : Series R) (i : Nat) : a.toPolynomial.coeff i = a.coeff i :=
  CoeffList.coeff_toPolynomial a.coeffs i

/-- A coefficient that is not zero is a known one. -/
theorem lt_precision_of_coeff_ne_zero {a : Series R} {i : Nat} (nonzero : a.coeff i ≠ 0)
    : i < a.precision := by
  by_contra past
  exact nonzero (CoeffList.coeff_of_length_le (Nat.not_lt.mp past))

/-- Series of the same precision that agree below it are equal. -/
theorem eq_of_X_pow_dvd {a b : Series R} (precision : a.precision = b.precision)
    (close : X ^ b.precision ∣ a.toPolynomial - b.toPolynomial)
    : a = b := by
  obtain ⟨a⟩ := a
  obtain ⟨b⟩ := b
  exact congrArg mk (CoeffList.ext_of_X_pow_dvd precision rfl close)

theorem coeff_eq_of_X_pow_dvd {a : Series R} {p : R[X]} {n i : Nat}
    (close : X ^ n ∣ a.toPolynomial - p) (h : i < n)
    : a.coeff i = p.coeff i := by
  have vanishes := X_pow_dvd_iff.mp close i h
  rwa [coeff_sub, coeff_toPolynomial, sub_eq_zero] at vanishes

theorem X_pow_dvd_sub_truncate (a : Series R) (n : Nat)
    : X ^ n ∣ a.toPolynomial - (a.truncate n).toPolynomial :=
  CoeffList.X_pow_dvd_sub_take n a.coeffs

/-- Cut at two places, a series agrees with itself below the lesser one. -/
theorem X_pow_dvd_truncate_sub (a : Series R) {k m : Nat} (h : k ≤ m)
    : X ^ k ∣ (a.truncate m).toPolynomial - (a.truncate k).toPolynomial := by
  rw [← sub_sub_sub_cancel_left _ _ a.toPolynomial]
  exact dvd_sub (a.X_pow_dvd_sub_truncate k)
    ((pow_dvd_pow X h).trans (a.X_pow_dvd_sub_truncate m))

theorem coeff_truncate (a : Series R) (n i : Nat)
    : (a.truncate n).coeff i = if i < n then a.coeff i else 0 :=
  CoeffList.coeff_take n a.coeffs i

theorem coeff_zero_truncate {a : Series R} (zero : a.coeff 0 = 0) (n : Nat)
    : (a.truncate n).coeff 0 = 0 := by
  rw [coeff_truncate, zero, ite_self]

/-- The sum agrees with the sum of polynomials below the lesser precision. -/
theorem X_pow_dvd_add (a b : Series R)
    : X ^ (a.add b).precision ∣ (a.add b).toPolynomial - (a.toPolynomial + b.toPolynomial) := by
  rw [X_pow_dvd_iff]
  intro i below
  rw [precision_add] at below
  have left : i < a.coeffs.length := below.trans_le (Nat.min_le_left _ _)
  have right : i < b.coeffs.length := below.trans_le (Nat.min_le_right _ _)
  rw [coeff_sub, Polynomial.coeff_add, coeff_toPolynomial, coeff_toPolynomial, coeff_toPolynomial,
    sub_eq_zero]
  exact CoeffList.coeff_zipWith (· + ·) left right

end Ring

section Field

variable {F : Type} [KernelField F] [ExactKernels F]

/-- The product that the kernels yield agrees with the product of polynomials below the lesser
precision.
-/
theorem exists_mul_yields (a b : Series F)
    : ∃ c, (a.mul b).Yields c ∧ c.precision = min a.precision b.precision
        ∧ X ^ c.precision ∣ c.toPolynomial - a.toPolynomial * b.toPolynomial := by
  obtain ⟨n, least⟩ : ∃ n, n = min a.precision b.precision := ⟨_, rfl⟩
  have left : (a.truncate n).precision = n := by
    rw [precision_truncate]
    omega
  have right : (b.truncate n).precision = n := by
    rw [precision_truncate]
    omega
  obtain ⟨product, same⟩ :
      ∃ c, c = schoolbook (a.truncate n).coeffs (b.truncate n).coeffs := ⟨_, rfl⟩
  have yields := ExactKernels.convolve_yields (a.truncate n).coeffs (b.truncate n).coeffs
  rw [← same] at yields
  have precision : (Series.mk (product.take n)).precision = n :=
    same ▸ length_take_schoolbook left right
  refine ⟨⟨product.take n⟩, ?_, precision.trans least, ?_⟩
  · rw [mul, ← least]
    exact yields.map fun product => Series.mk (product.take n)
  · have polynomial : CoeffList.toPolynomial product
        = (a.truncate n).toPolynomial * (b.truncate n).toPolynomial := by
      rw [same, toPolynomial_schoolbook]
      rfl
    have expanded : (Series.mk (product.take n)).toPolynomial - a.toPolynomial * b.toPolynomial
        = -(CoeffList.toPolynomial product - CoeffList.toPolynomial (product.take n))
          - a.toPolynomial * (b.toPolynomial - (b.truncate n).toPolynomial)
          - (b.truncate n).toPolynomial * (a.toPolynomial - (a.truncate n).toPolynomial) := by
      rw [polynomial, toPolynomial]
      ring
    rw [precision, expanded]
    refine dvd_sub (dvd_sub ?_ ?_) ?_
    · exact (CoeffList.X_pow_dvd_sub_take n product).neg_right
    · exact dvd_mul_of_dvd_right (b.X_pow_dvd_sub_truncate n) _
    · exact dvd_mul_of_dvd_right (a.X_pow_dvd_sub_truncate n) _

/-- Where none of the numbers up to the precision is zero there is an antiderivative. -/
theorem integral_eq_ok {a : Series F} (nonzero : NonzeroBelow F (a.precision + 1))
    : a.integral = .ok ⟨CoeffList.antiderivative a.coeffs⟩ := by
  rw [integral, inverseTable_eq_ok nonzero]
  rfl

/-- The antiderivative has constant term zero, and its derivative is the series. -/
theorem exists_integral_eq_ok {a : Series F} (nonzero : NonzeroBelow F (a.precision + 1))
    : ∃ b, a.integral = .ok b ∧ b.precision = a.precision + 1 ∧ b.coeff 0 = 0
        ∧ Polynomial.derivative b.toPolynomial = a.toPolynomial :=
  ⟨_, integral_eq_ok nonzero, CoeffList.length_antiderivative a.coeffs,
    CoeffList.coeff_antiderivative_zero a.coeffs,
    CoeffList.derivative_toPolynomial_antiderivative nonzero⟩

/-- Where the characteristic is among the numbers up to the precision there is no antiderivative. -/
theorem integral_eq_error {a : Series F} (small : CharacteristicBelow F (a.precision + 1))
    : a.integral = .error (.zeroDivisor (ringChar F)) := by
  rw [integral, inverseTable_eq_error small]
  rfl

/-- What has constant term zero and a derivative that vanishes below `n - 1` vanishes below `n`. -/
theorem X_pow_dvd_of_derivative {p : F[X]} {n : Nat} (nonzero : NonzeroBelow F n)
    (constant : p.coeff 0 = 0) (close : X ^ (n - 1) ∣ Polynomial.derivative p)
    : X ^ n ∣ p := by
  rw [X_pow_dvd_iff] at close ⊢
  intro i below
  cases i with
  | zero => exact constant
  | succ i =>
      have vanishes := close i (by omega)
      rw [Polynomial.coeff_derivative] at vanishes
      exact (mul_eq_zero.mp vanishes).resolve_right (nonzero.cast_ne_zero below)

end Field

end FastAlgebra.Series
