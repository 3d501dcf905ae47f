import Mathlib
import FastAlgebra.Poly.Basic
import FastAlgebra.Proofs.KernelField

/-! Polynomials in normal form are the polynomials of algebra. Since trailing zeros are cut off, no
two of them stand for the same polynomial, and the length of the list gives the degree.
-/

namespace FastAlgebra

open Polynomial

namespace CoeffList

variable {R : Type} [CoeffRing R]

/-- One more coefficient at the end is kept unless it is zero. -/
theorem trim_concat (a : List R) (c : R)
    : trim (a ++ [c]) = if CoeffRing.isZero c then trim a else a ++ [c] := by
  rw [trim, List.reverse_concat, List.dropWhile_cons]
  split
  · rfl
  · rw [List.reverse_cons, List.reverse_reverse]

/-- Cutting off trailing zeros does not change the polynomial, by induction from the end. -/
theorem toPolynomial_trim [LawfulRing R] (a : List R)
    : toPolynomial (trim a) = toPolynomial a := by
  induction a using List.reverseRecOn with
  | nil => rfl
  | append_singleton a c ih =>
      rw [trim_concat]
      split
      · rename_i zero
        rw [ih, toPolynomial_append, (LawfulRing.isZero_iff c).mp zero]
        simp
      · rfl

end CoeffList

namespace Poly

section Ring

variable {R : Type} [CoeffRing R]

theorem length_coeffs (p : Poly R) : p.coeffs.length = p.degree + 1 :=
  (Nat.sub_add_cancel (List.length_pos_iff.mpr p.nonempty)).symm

variable [LawfulRing R]

/-- The polynomial of algebra with the same coefficients. -/
noncomputable def toPolynomial (p : Poly R) : R[X] :=
  CoeffList.toPolynomial p.coeffs

@[simp]
theorem toPolynomial_ofCoeffs (a : List R)
    : (ofCoeffs a).toPolynomial = CoeffList.toPolynomial a := by
  rw [← CoeffList.toPolynomial_trim, toPolynomial, ofCoeffs]
  split
  · rename_i empty
    rw [empty]
    simp
  · rfl

@[simp]
theorem toPolynomial_zero : (zero : Poly R).toPolynomial = 0 :=
  toPolynomial_ofCoeffs []

@[simp]
theorem toPolynomial_one : (one : Poly R).toPolynomial = 1 := by
  rw [one, constant, toPolynomial_ofCoeffs, CoeffList.toPolynomial_singleton, C_1]

@[simp]
theorem toPolynomial_linear (root : R) : (linear root).toPolynomial = X - C root := by
  rw [linear, toPolynomial_ofCoeffs]
  simp only [CoeffList.toPolynomial, C_neg, C_1]
  ring

@[simp]
theorem toPolynomial_add (p q : Poly R)
    : (p.add q).toPolynomial = p.toPolynomial + q.toPolynomial := by
  rw [add, toPolynomial_ofCoeffs, CoeffList.toPolynomial_add]
  rfl

@[simp]
theorem toPolynomial_derivative (p : Poly R)
    : p.derivative.toPolynomial = Polynomial.derivative p.toPolynomial := by
  rw [derivative, toPolynomial_ofCoeffs, CoeffList.toPolynomial_derivative]
  rfl

theorem coeff_toPolynomial (p : Poly R) (i : Nat) : p.toPolynomial.coeff i = p.coeff i :=
  CoeffList.coeff_toPolynomial p.coeffs i

/-- Evaluation by Horner's rule is evaluation. -/
theorem eval_eq (p : Poly R) (point : R) : p.eval point = p.toPolynomial.eval point :=
  (CoeffList.eval_toPolynomial point p.coeffs).symm

theorem coeff_degree (p : Poly R) : p.coeff p.degree = p.lead := by
  rw [lead, List.getLast_eq_getElem]
  exact CoeffList.coeff_eq_getElem (by rw [length_coeffs]; exact Nat.lt_succ_self _)

/-- The zero polynomial has one form only. -/
theorem coeffs_eq_of_toPolynomial_eq_zero {p : Poly R} (zero : p.toPolynomial = 0)
    : p.coeffs = [0] := by
  rcases p.normal with single | normal
  · exact single
  · refine absurd ?_ ((LawfulRing.isZero_eq_false_iff p.lead).mp normal)
    rw [← coeff_degree, ← coeff_toPolynomial, zero, coeff_zero]

/-- The last coefficient vanishes for the zero polynomial only. -/
theorem lead_ne_zero {p : Poly R} (nonzero : p.toPolynomial ≠ 0) : p.lead ≠ 0 := by
  rcases p.normal with single | normal
  · refine absurd ?_ nonzero
    rw [toPolynomial, single]
    simp
  · exact (LawfulRing.isZero_eq_false_iff p.lead).mp normal

/-- The degree is the degree of the polynomial, zero for the zero polynomial. -/
theorem natDegree_toPolynomial (p : Poly R) : p.toPolynomial.natDegree = p.degree := by
  by_cases zero : p.toPolynomial = 0
  · rw [zero, natDegree_zero, degree, coeffs_eq_of_toPolynomial_eq_zero zero]
    rfl
  · apply natDegree_eq_of_le_of_coeff_ne_zero
    · have small : p.toPolynomial.natDegree < p.coeffs.length :=
        (natDegree_lt_iff_degree_lt zero).mpr (CoeffList.degree_toPolynomial_lt p.coeffs)
      rw [length_coeffs] at small
      exact Nat.le_of_lt_succ small
    · rw [coeff_toPolynomial, coeff_degree]
      exact lead_ne_zero zero

/-- Normal forms that stand for the same polynomial are equal. -/
theorem toPolynomial_injective : Function.Injective (toPolynomial : Poly R → R[X]) := by
  intro p q same
  have degrees : p.degree = q.degree := by
    rw [← natDegree_toPolynomial, same, natDegree_toPolynomial]
  exact ext (CoeffList.ext_polynomial (by rw [length_coeffs, length_coeffs, degrees]) same)

theorem toPolynomial_eq_zero_iff (p : Poly R) : p.toPolynomial = 0 ↔ p = zero := by
  rw [← toPolynomial_zero]
  exact toPolynomial_injective.eq_iff

theorem toPolynomial_ne_zero {p : Poly R} (nonzero : p ≠ zero) : p.toPolynomial ≠ 0 :=
  (toPolynomial_eq_zero_iff p).not.mpr nonzero

/-- A bound on the degree, in terms of algebra: there the zero polynomial is below every bound. -/
theorem degree_toPolynomial_lt_iff (p : Poly R) (n : Nat)
    : p.toPolynomial.degree < n ↔ p = zero ∨ p.degree < n := by
  by_cases trivial : p = zero
  · subst p
    simp
  · rw [← natDegree_lt_iff_degree_lt (toPolynomial_ne_zero trivial), natDegree_toPolynomial]
    simp [trivial]

/-- The zero polynomial is recognised. -/
theorem isZero_iff (p : Poly R) : p.isZero = true ↔ p = zero := by
  rw [← toPolynomial_eq_zero_iff, isZero, Bool.and_eq_true, beq_iff_eq, LawfulRing.isZero_iff]
  constructor
  · rintro ⟨_, vanishes⟩
    by_contra nonzero
    exact lead_ne_zero nonzero vanishes
  · intro zero
    have single := coeffs_eq_of_toPolynomial_eq_zero zero
    refine ⟨by rw [single, List.length_singleton], ?_⟩
    rw [← coeff_degree, ← coeff_toPolynomial, zero, coeff_zero]

end Ring

section Kernel

variable {F : Type} [KernelField F] [ExactKernels F]

/-- The product that the kernels yield is the product. -/
theorem exists_mul_yields (p q : Poly F)
    : ∃ r, (p.mul q).Yields r ∧ r.toPolynomial = p.toPolynomial * q.toPolynomial := by
  unfold mul
  split
  · rename_i trivial
    rw [Bool.or_eq_true, isZero_iff, isZero_iff] at trivial
    refine ⟨zero, Logged.yields_pure _, ?_⟩
    rcases trivial with rfl | rfl
    · rw [toPolynomial_zero, zero_mul]
    · rw [toPolynomial_zero, mul_zero]
  · refine ⟨_, (ExactKernels.convolve_yields p.coeffs q.coeffs).map ofCoeffs, ?_⟩
    rw [toPolynomial_ofCoeffs, toPolynomial_schoolbook]
    rfl

end Kernel

end Poly

end FastAlgebra
