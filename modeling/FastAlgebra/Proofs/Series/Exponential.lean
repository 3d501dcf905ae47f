import Mathlib
import FastAlgebra.Series.Exponential
import FastAlgebra.Proofs.Series.Basic

/-! Logarithms and exponentials of power series. Both are solutions of one differential equation:
`l` is the logarithm of `b`, and `b` the exponential of `l`, if `b l' = b'`. Up to the precision at
which some number becomes zero in the field, either series determines the other.
-/

namespace FastAlgebra.Series

open Polynomial

variable {F : Type} [KernelField F] [ExactKernels F]

/-- The series `l` is the logarithm of `b`, to the same precision: `b l' = b'` as far as the terms
are known, where `b` has constant term one and `l` has constant term zero.
-/
structure IsLogarithm (b l : Series F) : Prop where
  precision : l.precision = b.precision
  one : b.coeff 0 = 1
  zero : l.coeff 0 = 0
  slope
    : X ^ (b.precision - 1)
      ∣ b.toPolynomial * Polynomial.derivative l.toPolynomial
        - Polynomial.derivative b.toPolynomial

-----------------------------------------------------------------------------------------
-- The differential equation
-----------------------------------------------------------------------------------------

/-- A factor with constant term one does not take part in divisibility by powers of the variable. -/
theorem X_pow_dvd_of_mul {b : Series F} (one : b.coeff 0 = 1) {p : F[X]} {n : Nat}
    (multiple : X ^ n ∣ b.toPolynomial * p)
    : X ^ n ∣ p := by
  apply prime_X.pow_dvd_of_dvd_mul_left n _ multiple
  rw [X_dvd_iff, coeff_toPolynomial, one]
  exact one_ne_zero

/-- Agreement below one precision is agreement of the derivatives below one less. -/
theorem X_pow_dvd_derivative_sub {p q : F[X]} {k n : Nat} (close : X ^ n ∣ p - q) (h : k ≤ n)
    : X ^ (k - 1) ∣ Polynomial.derivative p - Polynomial.derivative q := by
  rw [← Polynomial.derivative_sub]
  exact pow_sub_one_dvd_derivative_of_pow_dvd ((pow_dvd_pow X h).trans close)

namespace IsLogarithm

variable {b c l k : Series F}

theorem positive (isLog : IsLogarithm b l) : 0 < b.precision :=
  lt_precision_of_coeff_ne_zero (isLog.one ▸ one_ne_zero)

/-- Whatever solves the equation to a lesser precision agrees with the logarithm there. -/
theorem close (isLog : IsLogarithm b l) {n : Nat} (nonzero : NonzeroBelow F n)
    (h : n ≤ b.precision) {p : F[X]} (zero : p.coeff 0 = 0)
    (slope : X ^ (n - 1)
      ∣ b.toPolynomial * Polynomial.derivative p - Polynomial.derivative b.toPolynomial)
    : X ^ n ∣ p - l.toPolynomial := by
  apply X_pow_dvd_of_derivative nonzero
  · rw [Polynomial.coeff_sub, coeff_toPolynomial, zero, isLog.zero, sub_zero]
  · apply X_pow_dvd_of_mul isLog.one
    have expanded : b.toPolynomial * Polynomial.derivative (p - l.toPolynomial)
        = (b.toPolynomial * Polynomial.derivative p - Polynomial.derivative b.toPolynomial)
          - (b.toPolynomial * Polynomial.derivative l.toPolynomial
            - Polynomial.derivative b.toPolynomial) := by
      rw [Polynomial.derivative_sub]
      ring
    rw [expanded]
    exact dvd_sub slope ((pow_dvd_pow X (Nat.sub_le_sub_right h 1)).trans isLog.slope)

/-- A series has one logarithm. -/
theorem unique (nonzero : NonzeroBelow F b.precision) (first : IsLogarithm b l)
    (second : IsLogarithm b k)
    : l = k := by
  apply eq_of_X_pow_dvd (first.precision.trans second.precision.symm)
  rw [second.precision]
  apply second.close nonzero (Nat.le_refl _) _ first.slope
  rw [coeff_toPolynomial, first.zero]

/-- A series has one exponential. The difference of two is its own derivative up to a factor, so
each term of it that vanishes makes the next one vanish.
-/
theorem unique_exponential (nonzero : NonzeroBelow F l.precision) (first : IsLogarithm b l)
    (second : IsLogarithm c l)
    : b = c := by
  have precision : b.precision = c.precision := first.precision.symm.trans second.precision
  have difference : X ^ (c.precision - 1)
      ∣ (b.toPolynomial - c.toPolynomial) * Polynomial.derivative l.toPolynomial
        - Polynomial.derivative (b.toPolynomial - c.toPolynomial) := by
    have expanded : (b.toPolynomial - c.toPolynomial) * Polynomial.derivative l.toPolynomial
          - Polynomial.derivative (b.toPolynomial - c.toPolynomial)
        = (b.toPolynomial * Polynomial.derivative l.toPolynomial
            - Polynomial.derivative b.toPolynomial)
          - (c.toPolynomial * Polynomial.derivative l.toPolynomial
            - Polynomial.derivative c.toPolynomial) := by
      rw [Polynomial.derivative_sub]
      ring
    rw [expanded]
    exact dvd_sub (precision ▸ first.slope) second.slope
  have vanishes : ∀ n ≤ c.precision, X ^ n ∣ b.toPolynomial - c.toPolynomial := by
    intro n
    induction n with
    | zero => simp
    | succ n ih =>
        intro below
        have known := ih (Nat.le_of_succ_le below)
        apply X_pow_dvd_of_derivative (nonzero.mono (second.precision ▸ below))
        · rw [Polynomial.coeff_sub, coeff_toPolynomial, coeff_toPolynomial, first.one, second.one,
            sub_self]
        · have multiple := dvd_mul_of_dvd_left known (Polynomial.derivative l.toPolynomial)
          exact (dvd_sub_right multiple).mp
            ((pow_dvd_pow X (Nat.le_sub_of_add_le below)).trans difference)
  exact eq_of_X_pow_dvd precision (vanishes c.precision (Nat.le_refl _))

/-- The logarithm of a product is the sum of the logarithms, to the lesser precision. -/
theorem mul {product : Series F} (first : IsLogarithm b l) (second : IsLogarithm c k)
    (precision : product.precision = min b.precision c.precision)
    (close : X ^ product.precision ∣ product.toPolynomial - b.toPolynomial * c.toPolynomial)
    : IsLogarithm product (l.add k) := by
  have sumPrecision : (l.add k).precision = product.precision := by
    rw [precision_add, first.precision, second.precision, precision]
  have positive : 0 < product.precision := by
    rw [precision]
    exact Nat.lt_min.mpr ⟨first.positive, second.positive⟩
  have sumClose := X_pow_dvd_add l k
  rw [sumPrecision] at sumClose
  refine ⟨sumPrecision, ?_, ?_, ?_⟩
  · rw [coeff_eq_of_X_pow_dvd close positive, mul_coeff_zero, coeff_toPolynomial,
      coeff_toPolynomial, first.one, second.one, one_mul]
  · rw [coeff_eq_of_X_pow_dvd sumClose positive, Polynomial.coeff_add, coeff_toPolynomial,
      coeff_toPolynomial, first.zero, second.zero, add_zero]
  · have expanded : product.toPolynomial * Polynomial.derivative (l.add k).toPolynomial
          - Polynomial.derivative product.toPolynomial
        = product.toPolynomial * (Polynomial.derivative (l.add k).toPolynomial
            - Polynomial.derivative (l.toPolynomial + k.toPolynomial))
          + (product.toPolynomial - b.toPolynomial * c.toPolynomial)
            * Polynomial.derivative (l.toPolynomial + k.toPolynomial)
          - (Polynomial.derivative product.toPolynomial
            - Polynomial.derivative (b.toPolynomial * c.toPolynomial))
          + c.toPolynomial * (b.toPolynomial * Polynomial.derivative l.toPolynomial
            - Polynomial.derivative b.toPolynomial)
          + b.toPolynomial * (c.toPolynomial * Polynomial.derivative k.toPolynomial
            - Polynomial.derivative c.toPolynomial) := by
      rw [derivative_mul, Polynomial.derivative_add]
      ring
    rw [expanded]
    refine dvd_add (dvd_add (dvd_sub (dvd_add ?_ ?_) ?_) ?_) ?_
    · exact dvd_mul_of_dvd_right (X_pow_dvd_derivative_sub sumClose (Nat.le_refl _)) _
    · exact dvd_mul_of_dvd_left ((pow_dvd_pow X (Nat.sub_le _ _)).trans close) _
    · exact X_pow_dvd_derivative_sub close (Nat.le_refl _)
    · exact dvd_mul_of_dvd_right ((pow_dvd_pow X (by omega)).trans first.slope) _
    · exact dvd_mul_of_dvd_right ((pow_dvd_pow X (by omega)).trans second.slope) _

/-- A step of Newton's iteration. Where the logarithm of `b` agrees with `t` below `x ^ n`, the
series `b (1 + t - l)` has the logarithm `t` up to twice that precision, because the error of the
equation is `b d d'` with `d = t - l`.
-/
theorem step {t : Series F} (isLog : IsLogarithm b l) (zero : t.coeff 0 = 0) {n : Nat}
    (near : X ^ n ∣ t.toPolynomial - l.toPolynomial) (doubled : b.precision ≤ 2 * n)
    (precision : c.precision = b.precision) (samePrecision : t.precision = b.precision)
    (close : X ^ b.precision
      ∣ c.toPolynomial - b.toPolynomial * (t.toPolynomial - l.toPolynomial + 1))
    : IsLogarithm c t := by
  refine ⟨samePrecision.trans precision.symm, ?_, zero, ?_⟩
  · rw [coeff_eq_of_X_pow_dvd close isLog.positive, mul_coeff_zero, Polynomial.coeff_add,
      Polynomial.coeff_sub, coeff_toPolynomial, coeff_toPolynomial, coeff_toPolynomial, isLog.one,
      zero, isLog.zero, coeff_one_zero, sub_zero, zero_add, one_mul]
  · have expanded : c.toPolynomial * Polynomial.derivative t.toPolynomial
          - Polynomial.derivative c.toPolynomial
        = (c.toPolynomial - b.toPolynomial * (t.toPolynomial - l.toPolynomial + 1))
            * Polynomial.derivative t.toPolynomial
          - (Polynomial.derivative c.toPolynomial
            - Polynomial.derivative (b.toPolynomial * (t.toPolynomial - l.toPolynomial + 1)))
          + (t.toPolynomial - l.toPolynomial + 1)
            * (b.toPolynomial * Polynomial.derivative l.toPolynomial
              - Polynomial.derivative b.toPolynomial)
          + b.toPolynomial * ((t.toPolynomial - l.toPolynomial)
            * (Polynomial.derivative t.toPolynomial - Polynomial.derivative l.toPolynomial)) := by
      rw [derivative_mul, Polynomial.derivative_add, Polynomial.derivative_sub, derivative_one]
      ring
    have error : X ^ (b.precision - 1) ∣ (t.toPolynomial - l.toPolynomial)
        * (Polynomial.derivative t.toPolynomial - Polynomial.derivative l.toPolynomial) := by
      refine (pow_dvd_pow X (by omega : b.precision - 1 ≤ n + (n - 1))).trans ?_
      rw [pow_add]
      exact mul_dvd_mul near (X_pow_dvd_derivative_sub near (Nat.le_refl n))
    rw [precision, expanded]
    refine dvd_add (dvd_add (dvd_sub ?_ ?_) ?_) ?_
    · exact dvd_mul_of_dvd_left ((pow_dvd_pow X (Nat.sub_le _ _)).trans close) _
    · exact X_pow_dvd_derivative_sub close (Nat.le_refl _)
    · exact dvd_mul_of_dvd_right isLog.slope _
    · exact dvd_mul_of_dvd_right error _

end IsLogarithm

-----------------------------------------------------------------------------------------
-- Logarithm
-----------------------------------------------------------------------------------------

theorem constantInverse?_eq_some {b : Series F} (one : b.coeff 0 = 1)
    : constantInverse? b.coeffs = some (1 : F)⁻¹ := by
  obtain ⟨coeffs⟩ := b
  cases coeffs with
  | nil => exact absurd one zero_ne_one
  | cons c rest =>
      obtain rfl : c = 1 := one
      exact LawfulField.inv?_eq_some one_ne_zero

/-- Division by `b` with an inverse of it solves `b q = p`. -/
theorem X_pow_dvd_mul_quotient_sub {b p inverse q : F[X]} {n : Nat}
    (unit : X ^ n ∣ b * inverse - 1) (quotient : X ^ n ∣ p * inverse - q)
    : X ^ n ∣ b * q - p := by
  have expanded : b * q - p = p * (b * inverse - 1) - b * (p * inverse - q) := by ring
  rw [expanded]
  exact dvd_sub (dvd_mul_of_dvd_right unit p) (dvd_mul_of_dvd_right quotient b)

/-- The logarithm is the integral of the logarithmic derivative, which is found at every precision.
-/
theorem exists_log_outcome_eq {b : Series F} (one : b.coeff 0 = 1)
    : ∃ q : Series F, q.precision + 1 = b.precision
        ∧ X ^ (b.precision - 1)
          ∣ b.toPolynomial * q.toPolynomial - Polynomial.derivative b.toPolynomial
        ∧ b.log.outcome = (Logged.ofResult q.integral : Kernel (Series F)).outcome := by
  have positive : 0 < b.precision := lt_precision_of_coeff_ne_zero (one ▸ one_ne_zero)
  obtain ⟨inverse, inverts, inverseSeries⟩ := ExactKernels.exists_seriesInverse_yields b.coeffs _
    (constantInverse?_eq_some one) (b.precision - 1)
  obtain ⟨quotient, same⟩ : ∃ q, q = schoolbook b.derivative.coeffs inverse := ⟨_, rfl⟩
  have divides := ExactKernels.convolve_yields b.derivative.coeffs inverse
  rw [← same] at divides
  refine ⟨⟨CoeffList.resize (b.precision - 1) quotient⟩, ?_, ?_, ?_⟩
  · rw [precision, CoeffList.length_resize]
    exact Nat.sub_add_cancel positive
  · have product : CoeffList.toPolynomial quotient
        = Polynomial.derivative b.toPolynomial * CoeffList.toPolynomial inverse := by
      rw [same, toPolynomial_schoolbook, Series.derivative, CoeffList.toPolynomial_derivative]
      rfl
    have cut := CoeffList.X_pow_dvd_sub_take (b.precision - 1) quotient
    rw [← CoeffList.toPolynomial_resize, product] at cut
    exact X_pow_dvd_mul_quotient_sub inverseSeries.unit cut
  · have isOne : CoeffRing.isOne (b.coeff 0) = true := (LawfulField.isOne_iff _).mpr one
    simp only [log, positive.ne', if_false, isOne, Bool.not_true, Bool.false_eq_true]
    rw [inverts.outcome_bind, divides.outcome_bind]

/-- The integral of the logarithmic derivative is the logarithm. -/
theorem exists_log_yields {b : Series F} (nonzero : NonzeroBelow F b.precision)
    (one : b.coeff 0 = 1)
    : ∃ l, b.log.Yields l ∧ IsLogarithm b l := by
  obtain ⟨q, precision, slope, same⟩ := exists_log_outcome_eq one
  obtain ⟨l, integrates, lPrecision, zero, derivative⟩ :=
    exists_integral_eq_ok (a := q) (by rwa [precision])
  refine ⟨l, ?_, lPrecision.trans precision, one, zero, ?_⟩
  · rw [Logged.Yields, same, integrates]
    rfl
  · rwa [derivative]

/-- Where the characteristic is below the precision there is no logarithm. -/
theorem log_fails {b : Series F} (small : CharacteristicBelow F b.precision)
    (one : b.coeff 0 = 1)
    : b.log.Fails (.refused (.zeroDivisor (ringChar F))) := by
  obtain ⟨q, precision, _, same⟩ := exists_log_outcome_eq one
  rw [← precision] at small
  rw [Logged.Fails, same, integral_eq_error small]
  rfl

-----------------------------------------------------------------------------------------
-- Exponential
-----------------------------------------------------------------------------------------

/-- Zeros behind an exponential change its logarithm only behind the precision it was known to. -/
theorem IsLogarithm.close_of_padded {a b padded l : Series F} {k m : Nat}
    (isLog : IsLogarithm b (a.truncate k)) (precision : b.precision = k)
    (paddedLog : IsLogarithm padded l) (same : padded.toPolynomial = b.toPolynomial)
    (nonzero : NonzeroBelow F k) (zero : a.coeff 0 = 0) (known : k ≤ m)
    (more : k ≤ padded.precision)
    : X ^ k ∣ (a.truncate m).toPolynomial - l.toPolynomial := by
  apply paddedLog.close nonzero more
  · rw [coeff_toPolynomial, coeff_zero_truncate zero]
  · have slope := isLog.slope
    rw [precision, ← same] at slope
    have cuts := X_pow_dvd_derivative_sub (a.X_pow_dvd_truncate_sub known) (Nat.le_refl k)
    have expanded : padded.toPolynomial * Polynomial.derivative (a.truncate m).toPolynomial
          - Polynomial.derivative padded.toPolynomial
        = (padded.toPolynomial * Polynomial.derivative (a.truncate k).toPolynomial
            - Polynomial.derivative padded.toPolynomial)
          + padded.toPolynomial * (Polynomial.derivative (a.truncate m).toPolynomial
            - Polynomial.derivative (a.truncate k).toPolynomial) := by ring
    rw [expanded]
    exact dvd_add slope (dvd_mul_of_dvd_right cuts _)

/-- The factor of a step is `1 + t - l`. -/
theorem toPolynomial_stepFactor (t l : Series F)
    : CoeffList.toPolynomial (CoeffList.add (CoeffList.sub t.coeffs l.coeffs) [1])
      = t.toPolynomial - l.toPolynomial + 1 := by
  rw [CoeffList.toPolynomial_add, CoeffList.toPolynomial_sub, CoeffList.toPolynomial_singleton, C_1]
  rfl

theorem length_stepFactor {t l : Series F} (positive : 0 < t.precision)
    (same : l.precision = t.precision)
    : (CoeffList.add (CoeffList.sub t.coeffs l.coeffs) [1]).length = t.precision := by
  simp only [precision] at positive same ⊢
  rw [CoeffList.length_add, CoeffList.length_sub, same, Nat.max_self, List.length_singleton]
  exact Nat.max_eq_left positive

/-- Zeros behind the terms of a series leave its polynomial. -/
theorem toPolynomial_resize {b : List F} {m : Nat} (short : b.length ≤ m)
    : (mk (CoeffList.resize m b)).toPolynomial = (mk b).toPolynomial := by
  rw [toPolynomial, CoeffList.toPolynomial_resize, List.take_of_length_le short]
  rfl

namespace IsLogarithm

variable {a l : Series F} {b : List F} {k m : Nat}

/-- The exponential of a series that is cut has as many terms as are left. -/
theorem length_eq (isLog : IsLogarithm ⟨b⟩ (a.truncate k)) (below : k ≤ a.precision)
    : b.length = k := by
  have same := isLog.precision
  rw [precision_truncate, Nat.min_eq_left below] at same
  exact same.symm

/-- Zeros behind an exponential leave its constant term. -/
theorem one_of_padded (isLog : IsLogarithm ⟨b⟩ l) (short : b.length ≤ m)
    : (Series.mk (CoeffList.resize m b)).coeff 0 = 1 := by
  rw [← coeff_toPolynomial, toPolynomial_resize short, coeff_toPolynomial, isLog.one]

end IsLogarithm

/-- A step brings an exponential to twice the precision, or to that of the series if that is less.
-/
theorem exists_expStep_yields {a : Series F} {b : List F} {k : Nat}
    (nonzero : NonzeroBelow F (min (2 * k) a.precision)) (zero : a.coeff 0 = 0)
    (below : k < a.precision) (isLog : IsLogarithm ⟨b⟩ (a.truncate k))
    : ∃ c, (expStep a b k).Yields c
        ∧ IsLogarithm ⟨c⟩ (a.truncate (min (2 * k) a.precision)) := by
  obtain ⟨m, least⟩ : ∃ m, m = min (2 * k) a.precision := ⟨_, rfl⟩
  rw [← least] at nonzero
  have known : b.length = k := isLog.length_eq below.le
  have target : (a.truncate m).precision = m := by
    rw [precision_truncate]
    omega
  -- The logarithm is taken of `b` with zeros behind it, which is the same polynomial.
  obtain ⟨padded, pad⟩ : ∃ p, p = CoeffList.resize m b := ⟨_, rfl⟩
  have same : (Series.mk padded).toPolynomial = (Series.mk b).toPolynomial :=
    pad ▸ toPolynomial_resize (by omega)
  have paddedLength : (Series.mk padded).precision = m := by
    rw [pad]
    exact CoeffList.length_resize m b
  have one : (Series.mk padded).coeff 0 = 1 := by
    rw [pad]
    exact isLog.one_of_padded (by omega)
  obtain ⟨l, logs, paddedLog⟩ := exists_log_yields (paddedLength.symm ▸ nonzero) one
  have near := isLog.close_of_padded (m := m) known paddedLog same (nonzero.mono (by omega)) zero
    (by omega) (by omega)
  obtain ⟨factor, form⟩ : ∃ f, f = CoeffList.add
      (CoeffList.sub (a.truncate m).coeffs l.coeffs) [1] := ⟨_, rfl⟩
  have factorLength : factor.length = m := by
    have logLength := paddedLog.precision.trans (paddedLength.trans target.symm)
    have positive := paddedLog.positive
    rw [form, length_stepFactor (by omega) logLength, target]
  have multiplies := ExactKernels.convolve_yields padded factor
  refine ⟨(schoolbook padded factor).take m, ?_, ?_⟩
  · rw [form] at multiplies
    simp only [expStep, ← least, ← pad]
    exact logs.bind (multiplies.bind ((Logged.yields_emit _).bind (form ▸ Logged.yields_pure _)))
  · rw [← least]
    apply paddedLog.step (coeff_zero_truncate zero m) near
    · omega
    · exact (length_take_schoolbook paddedLength factorLength).trans paddedLength.symm
    · exact target.trans paddedLength.symm
    · have cut := CoeffList.X_pow_dvd_sub_take m (schoolbook padded factor)
      rw [toPolynomial_schoolbook, form, toPolynomial_stepFactor, ← form] at cut
      rw [paddedLength]
      exact (dvd_sub_comm).mp cut

/-- The iteration starts with the exponential to precision one. -/
theorem isLogarithm_start {a : Series F} (positive : 0 < a.precision) (zero : a.coeff 0 = 0)
    : IsLogarithm ⟨[1]⟩ (a.truncate 1) := by
  refine ⟨?_, rfl, coeff_zero_truncate zero 1, ?_⟩
  · rw [precision_truncate, Nat.min_eq_left positive]
    rfl
  · exact one_dvd _

/-- With constant term zero, the exponential is what the iteration finds. -/
theorem exp_eq {a : Series F} (positive : 0 < a.precision) (zero : a.coeff 0 = 0)
    : a.exp = mk <$> (doublings 1 a.precision).foldlM (expStep a) [1] := by
  have isZero : CoeffRing.isZero (a.coeff 0) = true := (LawfulRing.isZero_iff _).mpr zero
  simp only [exp, positive.ne', if_false, isZero, Bool.not_true, Bool.false_eq_true]

/-- Newton's iteration finds the exponential, doubling the precision up to that of the series. -/
theorem exists_exp_yields {a : Series F} (positive : 0 < a.precision)
    (nonzero : NonzeroBelow F a.precision) (zero : a.coeff 0 = 0)
    : ∃ e, a.exp.Yields e ∧ IsLogarithm e a := by
  obtain ⟨last, e, reached, runs, isLog⟩ :=
    Logged.foldlM_doublings_yields (f := expStep a) (n := a.precision)
      (motive := fun k b => IsLogarithm ⟨b⟩ (a.truncate (min k a.precision))) Nat.one_pos
      (by
        rw [Nat.min_eq_left positive]
        exact isLogarithm_start positive zero)
      (by
        intro k b _ below isLog
        rw [Nat.min_eq_left below.le] at isLog
        exact exists_expStep_yields (nonzero.mono (Nat.min_le_right _ _)) zero below isLog)
  rw [Nat.min_eq_right reached, truncate_precision] at isLog
  refine ⟨⟨e⟩, ?_, isLog⟩
  rw [exp_eq positive zero]
  exact runs.map Series.mk

-----------------------------------------------------------------------------------------
-- Isomorphism
-----------------------------------------------------------------------------------------

/-- The logarithm undoes the exponential, since the series it is taken of has no other. -/
theorem exists_exp_log_yields {a : Series F} (positive : 0 < a.precision)
    (nonzero : NonzeroBelow F a.precision) (zero : a.coeff 0 = 0)
    : ∃ e, a.exp.Yields e ∧ e.precision = a.precision ∧ e.coeff 0 = 1 ∧ e.log.Yields a := by
  obtain ⟨e, yields, isLog⟩ := exists_exp_yields positive nonzero zero
  have precision := isLog.precision
  obtain ⟨l, logYields, other⟩ := exists_log_yields (precision ▸ nonzero) isLog.one
  obtain rfl := isLog.unique (precision ▸ nonzero) other
  exact ⟨e, yields, precision.symm, isLog.one, logYields⟩

/-- The exponential undoes the logarithm, since only one series has that logarithm. -/
theorem exists_log_exp_yields {b : Series F} (positive : 0 < b.precision)
    (nonzero : NonzeroBelow F b.precision) (one : b.coeff 0 = 1)
    : ∃ l, b.log.Yields l ∧ l.precision = b.precision ∧ l.coeff 0 = 0 ∧ l.exp.Yields b := by
  obtain ⟨l, yields, isLog⟩ := exists_log_yields nonzero one
  have precision := isLog.precision
  obtain ⟨e, expYields, other⟩ :=
    exists_exp_yields (precision ▸ positive) (precision ▸ nonzero) isLog.zero
  obtain rfl := isLog.unique_exponential (precision ▸ nonzero) other
  exact ⟨l, yields, precision, isLog.zero, expYields⟩

/-- The logarithm carries products to sums. -/
theorem exists_mul_log_yields {b c : Series F} (nonzeroB : NonzeroBelow F b.precision)
    (oneB : b.coeff 0 = 1) (nonzeroC : NonzeroBelow F c.precision) (oneC : c.coeff 0 = 1)
    : ∃ l k, b.log.Yields l ∧ c.log.Yields k
        ∧ (b.mul c >>= fun product => product.log).Yields (l.add k) := by
  obtain ⟨l, logB, isLogB⟩ := exists_log_yields nonzeroB oneB
  obtain ⟨k, logC, isLogC⟩ := exists_log_yields nonzeroC oneC
  obtain ⟨product, multiplies, precision, close⟩ := exists_mul_yields b c
  have sum := isLogB.mul isLogC precision close
  have nonzero : NonzeroBelow F product.precision :=
    nonzeroB.mono (precision ▸ Nat.min_le_left _ _)
  obtain ⟨s, logProduct, isLog⟩ := exists_log_yields nonzero sum.one
  obtain rfl := isLog.unique nonzero sum
  exact ⟨l, k, logB, logC, multiplies.bind logProduct⟩

/-- The exponential carries sums to products. -/
theorem exists_add_exp_yields {a d : Series F} (positiveA : 0 < a.precision)
    (nonzeroA : NonzeroBelow F a.precision) (zeroA : a.coeff 0 = 0) (positiveD : 0 < d.precision)
    (nonzeroD : NonzeroBelow F d.precision) (zeroD : d.coeff 0 = 0)
    : ∃ e f product, a.exp.Yields e ∧ d.exp.Yields f ∧ (e.mul f).Yields product
        ∧ (a.add d).exp.Yields product := by
  obtain ⟨e, expA, isLogA⟩ := exists_exp_yields positiveA nonzeroA zeroA
  obtain ⟨f, expD, isLogD⟩ := exists_exp_yields positiveD nonzeroD zeroD
  obtain ⟨product, multiplies, precision, close⟩ := exists_mul_yields e f
  have sum := isLogA.mul isLogD precision close
  have nonzero : NonzeroBelow F (a.add d).precision :=
    nonzeroA.mono (precision_add a d ▸ Nat.min_le_left _ _)
  obtain ⟨g, expSum, isLog⟩ := exists_exp_yields (sum.precision ▸ sum.positive) nonzero sum.zero
  obtain rfl := isLog.unique_exponential nonzero sum
  exact ⟨e, f, g, expA, expD, multiplies, expSum⟩

/-- Exponential and logarithm undo each other, at every precision before a number becomes zero in
the field, and they carry sums to products and products to sums, at the lesser precision of the
operands.
-/
theorem exp_log_exact {F : Type} [KernelField F] [LibraryField F]
    : (∀ a : Series F, 0 < a.precision → NonzeroBelow F a.precision → a.coeff 0 = 0
          → ∃ e, a.exp.Yields e ∧ e.precision = a.precision ∧ e.coeff 0 = 1 ∧ e.log.Yields a)
      ∧ (∀ b : Series F, 0 < b.precision → NonzeroBelow F b.precision → b.coeff 0 = 1
          → ∃ l, b.log.Yields l ∧ l.precision = b.precision ∧ l.coeff 0 = 0 ∧ l.exp.Yields b)
      ∧ (∀ b c : Series F, 0 < b.precision → NonzeroBelow F b.precision → b.coeff 0 = 1
          → 0 < c.precision → NonzeroBelow F c.precision → c.coeff 0 = 1
          → ∃ l k, b.log.Yields l ∧ c.log.Yields k
              ∧ (b.mul c >>= fun product => product.log).Yields (l.add k))
      ∧ (∀ a d : Series F, 0 < a.precision → NonzeroBelow F a.precision → a.coeff 0 = 0
          → 0 < d.precision → NonzeroBelow F d.precision → d.coeff 0 = 0
          → ∃ e f product, a.exp.Yields e ∧ d.exp.Yields f ∧ (e.mul f).Yields product
              ∧ (a.add d).exp.Yields product) := by
  refine ⟨?_, ?_, ?_, ?_⟩
  · intro a positive nonzero zero
    exact exists_exp_log_yields positive nonzero zero
  · intro b positive nonzero one
    exact exists_log_exp_yields positive nonzero one
  · intro b c _ nonzeroB oneB _ nonzeroC oneC
    exact exists_mul_log_yields nonzeroB oneB nonzeroC oneC
  · intro a d positiveA nonzeroA zeroA positiveD nonzeroD zeroD
    exact exists_add_exp_yields positiveA nonzeroA zeroA positiveD nonzeroD zeroD

theorem exp_log_exact_seventeen
    : NonzeroBelow (Residue Modulus.seventeen) 4
      ∧ (Series.mk ([0, 1, 0] : List (Residue Modulus.seventeen))).exp.Yields ⟨[1, 1, 9]⟩
      ∧ (Series.mk ([1, 1, 9] : List (Residue Modulus.seventeen))).log.Yields ⟨[0, 1, 0]⟩
      ∧ (Series.mk ([0, 2, 0, 0] : List (Residue Modulus.seventeen))).exp.Yields ⟨[1, 2, 2, 7]⟩
      ∧ (Series.mk ([1, 2, 2, 7] : List (Residue Modulus.seventeen))).log.Yields ⟨[0, 2, 0, 0]⟩
      ∧ (Series.mul ⟨[1, 1, 9]⟩ (Series.mk ([1, 2, 2, 7] : List (Residue Modulus.seventeen)))
          >>= fun product => product.log).Yields (Series.add ⟨[0, 1, 0]⟩ ⟨[0, 2, 0, 0]⟩)
      ∧ ∃ product : Series (Residue Modulus.seventeen),
          (Series.mul ⟨[1, 1, 9]⟩ ⟨[1, 2, 2, 7]⟩).Yields product
            ∧ (Series.add ⟨[0, 1, 0]⟩ ⟨[0, 2, 0, 0]⟩).exp.Yields product := by
  have four : NonzeroBelow (Residue Modulus.seventeen) 4 := by
    intro i positive below
    interval_cases i <;> decide
  have three : NonzeroBelow (Residue Modulus.seventeen) 3 := four.mono (by omega)
  have logE : (Series.mk ([1, 1, 9] : List (Residue Modulus.seventeen))).log.Yields
      ⟨[0, 1, 0]⟩ := by
    rw [Logged.Yields]
    decide +kernel
  have logF : (Series.mk ([1, 2, 2, 7] : List (Residue Modulus.seventeen))).log.Yields
      ⟨[0, 2, 0, 0]⟩ := by
    rw [Logged.Yields]
    decide +kernel
  obtain ⟨logAfterExp, expAfterLog, ofProduct, ofSum⟩ :=
    exp_log_exact (F := Residue Modulus.seventeen)
  obtain ⟨e, expA, _, _, back⟩ := logAfterExp ⟨[0, 1, 0]⟩ (by decide) three (by decide)
  obtain ⟨l, isLog, _, _, expE⟩ := expAfterLog ⟨[1, 1, 9]⟩ (by decide) three (by decide)
  obtain ⟨k, isLogF, _, _, expF⟩ := expAfterLog ⟨[1, 2, 2, 7]⟩ (by decide) four (by decide)
  obtain rfl := isLog.unique logE
  obtain rfl := isLogF.unique logF
  obtain rfl := expA.unique expE
  obtain ⟨_, _, first, second, product⟩ := ofProduct ⟨[1, 1, 9]⟩ ⟨[1, 2, 2, 7]⟩ (by decide) three
    (by decide) (by decide) four (by decide)
  obtain rfl := first.unique logE
  obtain rfl := second.unique logF
  obtain ⟨_, _, both, one, two, multiplies, sum⟩ := ofSum ⟨[0, 1, 0]⟩ ⟨[0, 2, 0, 0]⟩ (by decide)
    three (by decide) (by decide) four (by decide)
  obtain rfl := one.unique expE
  obtain rfl := two.unique expF
  exact ⟨four, expE, back, expF, logF, product, both, multiplies, sum⟩

end FastAlgebra.Series
