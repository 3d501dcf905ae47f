import Mathlib
import FastAlgebra.Proofs.Series.Arithmetic
import FastAlgebra.Proofs.Series.Exponential

/-! Derivatives and antiderivatives, of polynomials and of power series. The derivative obeys the
product rule, at one term less than the operands, and the integral undoes it wherever it exists, up
to the constant term.
-/

namespace FastAlgebra.Series

open Polynomial

theorem precision_derivative {R : Type} [CoeffRing R] (a : Series R)
    : a.derivative.precision = a.precision - 1 :=
  CoeffList.length_derivative a.coeffs

theorem toPolynomial_derivative {R : Type} [CoeffRing R] [LawfulRing R] (a : Series R)
    : a.derivative.toPolynomial = Polynomial.derivative a.toPolynomial :=
  CoeffList.toPolynomial_derivative a.coeffs

variable {F : Type} [KernelField F] [ExactKernels F] {a b c : Series F}

-----------------------------------------------------------------------------------------
-- The product rule
-----------------------------------------------------------------------------------------

/-- The derivative of a product is the sum of the products with one factor differentiated. Either of
them knows at least as many terms as the derivative, and one of them no more.
-/
theorem IsProduct.derivative_eq {d e : Series F} (whole : IsProduct a b c)
    (left : IsProduct a.derivative b d) (right : IsProduct a b.derivative e)
    : c.derivative = d.add e := by
  have precision : c.derivative.precision = (d.add e).precision := by
    rw [precision_derivative, precision_add, left.precision, right.precision, whole.precision,
      precision_derivative, precision_derivative]
    omega
  obtain ⟨n, least⟩ : ∃ n, n = (d.add e).precision := ⟨_, rfl⟩
  have leftKnown : n ≤ d.precision := least ▸ precision_add d e ▸ Nat.min_le_left _ _
  have rightKnown : n ≤ e.precision := least ▸ precision_add d e ▸ Nat.min_le_right _ _
  have slope : c.derivative.remainder n
      = AdjoinRoot.mk (X ^ n) (Polynomial.derivative (a.toPolynomial * b.toPolynomial)) := by
    rw [remainder, toPolynomial_derivative, AdjoinRoot.mk_eq_mk, least, ← precision,
      precision_derivative]
    exact X_pow_dvd_derivative_sub whole.close (Nat.le_refl _)
  apply eq_of_remainder_eq precision
  rw [← least, slope, derivative_mul, map_add, map_mul, map_mul, ← toPolynomial_derivative,
    ← toPolynomial_derivative, remainder_add least.le, left.remainder_eq leftKnown,
    right.remainder_eq rightKnown]
  rfl

theorem exists_derivative_mul_yields (a b : Series F)
    : ∃ product left right,
        (a.mul b).Yields product
        ∧ (a.derivative.mul b).Yields left
        ∧ (a.mul b.derivative).Yields right
        ∧ product.derivative = left.add right := by
  obtain ⟨product, multiplies, precision, close⟩ := exists_mul_yields a b
  obtain ⟨left, leftMultiplies, leftPrecision, leftClose⟩ := exists_mul_yields a.derivative b
  obtain ⟨right, rightMultiplies, rightPrecision, rightClose⟩ := exists_mul_yields a b.derivative
  refine ⟨product, left, right, multiplies, leftMultiplies, rightMultiplies, ?_⟩
  exact IsProduct.derivative_eq ⟨precision, close⟩ ⟨leftPrecision, leftClose⟩
    ⟨rightPrecision, rightClose⟩

-----------------------------------------------------------------------------------------
-- The integral
-----------------------------------------------------------------------------------------

/-- The numbers that are divided by are those up to the precision. -/
theorem integral_integrates (a : Series F) : Integrates F a.precision a.integral := by
  by_cases small : CharacteristicBelow F (a.precision + 1)
  · exact .of_eq_error small (integral_eq_error small)
  · have nonzero := nonzeroBelow_iff.mpr small
    exact .of_eq_ok nonzero (integral_eq_ok nonzero)

/-- An integral that is found is the antiderivative, and all numbers up to the precision have an
inverse.
-/
theorem of_integral_eq_ok (integrated : a.integral = .ok b)
    : NonzeroBelow F (a.precision + 1) ∧ b = ⟨CoeffList.antiderivative a.coeffs⟩ := by
  by_cases small : CharacteristicBelow F (a.precision + 1)
  · rw [integral_eq_error small] at integrated
    exact nomatch integrated
  · have nonzero := nonzeroBelow_iff.mpr small
    rw [integral_eq_ok nonzero] at integrated
    exact ⟨nonzero, (Except.ok.inj integrated).symm⟩

/-- The derivative undoes the integral. -/
theorem derivative_of_integral_eq_ok (integrated : a.integral = .ok b) : b.derivative = a := by
  obtain ⟨nonzero, rfl⟩ := of_integral_eq_ok integrated
  refine congrArg mk (CoeffList.ext_polynomial ?_ ?_)
  · rw [CoeffList.length_derivative, CoeffList.length_antiderivative, Nat.add_sub_cancel]
  · rw [CoeffList.toPolynomial_derivative,
      CoeffList.derivative_toPolynomial_antiderivative nonzero]

/-- The integral undoes the derivative up to the constant term. -/
theorem integral_derivative (positive : 0 < a.precision)
    (integrated : a.derivative.integral = .ok b)
    : b = ⟨a.coeffs.set 0 0⟩ := by
  obtain ⟨nonzero, rfl⟩ := of_integral_eq_ok integrated
  rw [precision_derivative, Nat.sub_add_cancel positive] at nonzero
  refine congrArg mk (CoeffList.ext_coeff ?_ ?_)
  · rw [CoeffList.length_antiderivative, List.length_set]
    exact (congrArg (· + 1) (precision_derivative a)).trans (Nat.sub_add_cancel positive)
  · intro i _
    exact CoeffList.coeff_antiderivative_of_derivative nonzero (toPolynomial_derivative a) i

/-- Over every field of the library the derivative of a product follows the product rule, for
polynomials and for series of any precisions. The integral exists exactly where no degree that it
divides by is zero, is otherwise refused with the characteristic, and is undone by the derivative.
Of a derivative it gives back all but the constant term; a polynomial has one whenever none of its
own degrees is zero.
-/
theorem derivative_integral_exact {F : Type} [KernelField F] [LibraryField F]
    : (∀ p q : Poly F, ∃ product left right,
          (p.mul q).Yields product
          ∧ (p.derivative.mul q).Yields left
          ∧ (p.mul q.derivative).Yields right
          ∧ product.derivative = left.add right)
      ∧ (∀ a b : Series F, ∃ product left right,
          (a.mul b).Yields product
          ∧ (a.derivative.mul b).Yields left
          ∧ (a.mul b.derivative).Yields right
          ∧ product.derivative = left.add right)
      ∧ (∀ a : Series F, Integrates F a.precision a.integral)
      ∧ (∀ p : Poly F, Integrates F (p.degree + 1) p.integral)
      ∧ (∀ a b : Series F, a.integral = .ok b → b.derivative = a)
      ∧ (∀ p q : Poly F, p.integral = .ok q → q.derivative = p)
      ∧ (∀ a : Series F, 0 < a.precision
          → ∀ b, a.derivative.integral = .ok b → b = ⟨a.coeffs.set 0 0⟩)
      ∧ (∀ p : Poly F, (∀ i, 1 ≤ i → i ≤ p.degree → (i : F) ≠ 0)
          → p.derivative.integral = .ok (Poly.ofCoeffs (p.coeffs.set 0 0))) := by
  refine ⟨Poly.exists_derivative_mul_yields, exists_derivative_mul_yields, integral_integrates,
    Poly.integral_integrates, fun _ _ => derivative_of_integral_eq_ok,
    fun _ _ => Poly.derivative_of_integral_eq_ok, fun _ positive _ => integral_derivative positive,
    ?_⟩
  intro p nonzero
  exact Poly.integral_derivative (nonzeroBelow_succ_iff.mpr nonzero)

theorem derivative_integral_exact_seventeen
    : (mk ([1, 2, 3] : List (Residue Modulus.seventeen))).integral = .ok ⟨[0, 1, 1, 1]⟩
      ∧ (mk ([0, 1, 1, 1] : List (Residue Modulus.seventeen))).derivative = ⟨[1, 2, 3]⟩
      ∧ (mk ([4, 1, 1, 1] : List (Residue Modulus.seventeen))).derivative.integral
          = .ok ⟨[0, 1, 1, 1]⟩
      ∧ (constant (1 : Residue Modulus.seventeen) 17).integral = .error (.zeroDivisor 17)
      ∧ (Poly.ofCoeffs ([4, 1, 1, 1] : List (Residue Modulus.seventeen))).derivative.integral
          = .ok (Poly.ofCoeffs [0, 1, 1, 1]) := by
  obtain ⟨-, -, decided, -, undone, -, constantLost, polynomials⟩ :=
    derivative_integral_exact (F := Residue Modulus.seventeen)
  have integrated : (mk ([1, 2, 3] : List (Residue Modulus.seventeen))).integral
      = .ok ⟨[0, 1, 1, 1]⟩ := by decide +kernel
  have nonzero : NonzeroBelow (Residue Modulus.seventeen) 4 := by
    intro i positive below
    interval_cases i <;> decide
  obtain ⟨b, found⟩ := (decided (derivative ⟨[4, 1, 1, 1]⟩)).exists_eq_ok_iff.mpr
    (nonzeroBelow_succ_iff.mp nonzero)
  obtain rfl := constantLost ⟨[4, 1, 1, 1]⟩ (by decide) b found
  have seventeen : ringChar (Residue Modulus.seventeen) = 17 := Residue.ringChar_eq
  have obstacle : CharacteristicBelow (Residue Modulus.seventeen) 18 :=
    ⟨by rw [seventeen]; decide, by rw [seventeen]; decide⟩
  have refused := ((decided (constant 1 17)).eq_error_iff (.zeroDivisor 17)).mpr
    ⟨isLeast_ringChar obstacle, by rw [seventeen]⟩
  have degree : (Poly.ofCoeffs ([4, 1, 1, 1] : List (Residue Modulus.seventeen))).degree = 3 := by
    decide +kernel
  exact ⟨integrated, undone _ _ integrated, found, refused, polynomials _
    (by rw [degree]; exact nonzeroBelow_succ_iff.mp nonzero)⟩

end FastAlgebra.Series
