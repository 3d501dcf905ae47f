import Mathlib
import FastAlgebra.Poly.Division
import FastAlgebra.Proofs.Poly.Basic

/-! Division with remainder. Long division is read in both directions: from the end of the lists it
is an identity of polynomials, from their beginning one of power series. The second reading shows
that the series division finds the same quotient.
-/

namespace FastAlgebra

open Polynomial

-----------------------------------------------------------------------------------------
-- Long division on lists
-----------------------------------------------------------------------------------------

section Lists

open CoeffList

variable {R : Type} [CommRing R]

@[simp]
theorem length_subMultiple (c : R) (a b : List R) : (subMultiple c a b).length = b.length := by
  fun_induction subMultiple c a b <;> simp_all

/-- Taking away at the beginning, as power series. -/
theorem toPolynomial_subMultiple (c : R) {a b : List R} (fits : a.length ≤ b.length)
    : toPolynomial (subMultiple c a b) = toPolynomial b - C c * toPolynomial a := by
  fun_induction subMultiple c a b with
  | case1 b => simp
  | case2 a nonempty =>
      exact absurd (List.length_eq_zero_iff.mp (Nat.le_zero.mp fits)) (by simpa using nonempty)
  | case3 x a y b ih =>
      simp only [toPolynomial, ih (by simpa using fits), C_sub, C_mul]
      ring

theorem toPolynomial_reverse_cons (x : R) (a : List R)
    : toPolynomial (x :: a).reverse = toPolynomial a.reverse + X ^ a.length * C x := by
  rw [List.reverse_cons, toPolynomial_append, List.length_reverse, toPolynomial_singleton]

/-- Taking away at the beginning, as polynomials with the highest degree first. -/
theorem toPolynomial_reverse_subMultiple (c : R) {a b : List R} (fits : a.length ≤ b.length)
    : toPolynomial (subMultiple c a b).reverse
      = toPolynomial b.reverse - C c * X ^ (b.length - a.length) * toPolynomial a.reverse := by
  fun_induction subMultiple c a b with
  | case1 b => simp
  | case2 a nonempty =>
      exact absurd (List.length_eq_zero_iff.mp (Nat.le_zero.mp fits)) (by simpa using nonempty)
  | case3 x a y b ih =>
      have shorter : a.length ≤ b.length := by simpa using fits
      have power : (X : R[X]) ^ b.length = X ^ (b.length - a.length) * X ^ a.length := by
        rw [← pow_add, Nat.sub_add_cancel shorter]
      simp only [toPolynomial_reverse_cons, ih shorter, length_subMultiple, List.length_cons,
        Nat.add_sub_add_right, C_sub, C_mul, power]
      ring

/-- The lists of a division with the highest degree first: the identity of the division holds of
the polynomials, and it holds of the power series up to the length of the quotient.
-/
structure Divided (rest divisor : List R) (length : Nat) (quotient remainder : List R)
    : Prop where
  quotientLength : quotient.length = length
  remainderLength : remainder.length + 1 = divisor.length
  series
    : toPolynomial rest
      = toPolynomial quotient * toPolynomial divisor + X ^ length * toPolynomial remainder
  polynomial
    : toPolynomial rest.reverse
      = toPolynomial quotient.reverse * toPolynomial divisor.reverse
        + toPolynomial remainder.reverse

/-- Long division divides, by induction on the length of the quotient. -/
theorem longDivide_divided {lead leadInverse : R} (inverse : lead * leadInverse = 1)
    (tail : List R) {length : Nat} {rest : List R} (h : rest.length = length + tail.length)
    : Divided rest (lead :: tail) length (longDivide leadInverse tail length rest).1
        (longDivide leadInverse tail length rest).2 := by
  induction length generalizing rest with
  | zero =>
      rw [longDivide]
      refine ⟨rfl, by simpa using h, by simp, by simp⟩
  | succ length ih =>
      cases rest with
      | nil => exact absurd h (by simp; omega)
      | cons x rest =>
          have total : rest.length = length + tail.length := by
            rw [List.length_cons] at h
            omega
          have fits : tail.length ≤ rest.length := by omega
          -- The shortened divisor is taken away from the rest only, so the leading terms have to
          -- cancel by themselves.
          have step := @ih (subMultiple (x * leadInverse) tail rest)
            (by rw [length_subMultiple, total])
          rw [longDivide]
          generalize longDivide leadInverse tail length _ = result at step ⊢
          obtain ⟨quotient, remainder⟩ := result
          obtain ⟨quotientLength, remainderLength, series, polynomial⟩ := step
          have leading : (C (x * leadInverse) : R[X]) * C lead = C x := by
            rw [← C_mul, mul_assoc, mul_comm leadInverse, inverse, mul_one]
          refine ⟨by rw [List.length_cons, quotientLength], remainderLength, ?_, ?_⟩
          · rw [toPolynomial_subMultiple _ fits] at series
            simp only [toPolynomial] at series ⊢
            linear_combination X * series - leading
          · rw [toPolynomial_reverse_subMultiple _ fits, total, Nat.add_sub_cancel] at polynomial
            simp only [toPolynomial_reverse_cons, quotientLength, total, pow_add] at polynomial ⊢
            linear_combination polynomial - X ^ length * X ^ tail.length * leading

/-- The quotient is also the beginning of the quotient of power series: the inverse of the
beginning of the divisor takes the divisor out of the dividend, up to the length of the quotient.
-/
theorem Divided.take_schoolbook {rest divisor quotient remainder inverse : List R} {length : Nat}
    (divided : Divided rest divisor length quotient remainder) (positive : 0 < length)
    (long : length ≤ rest.length) (inverts : InverseSeries (divisor.take length) inverse length)
    : (schoolbook (rest.take length) inverse).take length = quotient := by
  have start : (rest.take length).length = length := List.length_take_of_le long
  have startNonempty : rest.take length ≠ [] := List.ne_nil_of_length_pos (by rwa [start])
  have inverseNonempty : inverse ≠ [] := List.ne_nil_of_length_pos (inverts.length ▸ positive)
  have cut : ((schoolbook (rest.take length) inverse).take length).length = length := by
    rw [List.length_take, length_schoolbook startNonempty inverseNonempty, start, inverts.length]
    omega
  apply ext_of_X_pow_dvd cut divided.quotientLength
  have expanded : toPolynomial ((schoolbook (rest.take length) inverse).take length)
        - toPolynomial quotient
      = toPolynomial quotient * toPolynomial inverse
            * (toPolynomial divisor - toPolynomial (divisor.take length))
          + toPolynomial quotient
            * (toPolynomial (divisor.take length) * toPolynomial inverse - 1)
          + X ^ length * (toPolynomial remainder * toPolynomial inverse)
          - toPolynomial inverse * (toPolynomial rest - toPolynomial (rest.take length))
          - (toPolynomial (schoolbook (rest.take length) inverse)
            - toPolynomial ((schoolbook (rest.take length) inverse).take length)) := by
    rw [toPolynomial_schoolbook, divided.series]
    ring
  -- What the cuts leave out, the error of the inverse and the remainder all start behind the
  -- quotient.
  rw [expanded]
  refine dvd_sub (dvd_sub (dvd_add (dvd_add ?_ ?_) (dvd_mul_right _ _)) ?_) ?_
  · exact dvd_mul_of_dvd_right (X_pow_dvd_sub_take _ _) _
  · exact dvd_mul_of_dvd_right inverts.unit _
  · exact dvd_mul_of_dvd_right (X_pow_dvd_sub_take _ _) _
  · exact X_pow_dvd_sub_take _ _

end Lists

-----------------------------------------------------------------------------------------
-- Both methods
-----------------------------------------------------------------------------------------

namespace Poly

variable {F : Type} [KernelField F] [ExactKernels F]

theorem reverse_coeffs {R : Type} [CoeffRing R] (p : Poly R)
    : p.coeffs.reverse = p.lead :: p.coeffs.reverse.tail := by
  have nonempty : p.coeffs.reverse ≠ [] := by simpa using p.nonempty
  rw [lead, ← List.head_reverse nonempty]
  exact (List.cons_head_tail nonempty).symm

/-- Long division succeeds for every divisor but zero. -/
theorem exists_longDivRem_eq {p d : Poly F} (nonzero : d ≠ zero) (larger : d.degree ≤ p.degree)
    : ∃ quotient remainder,
        p.longDivRem d = .ok (ofCoeffs quotient.reverse, ofCoeffs remainder.reverse)
          ∧ Divided p.coeffs.reverse d.coeffs.reverse (p.quotientLength d) quotient remainder := by
  have lead : d.lead ≠ 0 := lead_ne_zero (toPolynomial_ne_zero nonzero)
  have tailLength : d.coeffs.reverse.tail.length = d.degree := by
    rw [List.length_tail, List.length_reverse, length_coeffs, Nat.add_sub_cancel]
  have total : p.coeffs.reverse.length
      = p.quotientLength d + d.coeffs.reverse.tail.length := by
    rw [tailLength, List.length_reverse, length_coeffs, quotientLength]
    omega
  have divided := longDivide_divided (mul_inv_cancel₀ lead) d.coeffs.reverse.tail total
  rw [← reverse_coeffs] at divided
  refine ⟨_, _, ?_, divided⟩
  simp only [longDivRem, LawfulField.inv?_eq_some lead]

theorem degree_remainder_lt {R : Type} [CoeffRing R] [LawfulRing R] {d : Poly R} {length : Nat}
    {rest quotient remainder : List R}
    (divided : Divided rest d.coeffs.reverse length quotient remainder)
    : (CoeffList.toPolynomial remainder.reverse).degree < d.degree := by
  have short : remainder.reverse.length = d.degree := by
    have remainderLength := divided.remainderLength
    rw [List.length_reverse, length_coeffs] at remainderLength
    rw [List.length_reverse]
    exact Nat.succ.inj remainderLength
  rw [← short]
  exact CoeffList.degree_toPolynomial_lt _

/-- The reversed divisor starts with its leading coefficient, which has an inverse. -/
theorem constantInverse?_reverse {d : Poly F} (nonzero : d ≠ zero) {length : Nat}
    (positive : 0 < length)
    : constantInverse? (d.coeffs.reverse.take length) = some d.lead⁻¹ := by
  obtain ⟨k, rfl⟩ : ∃ k, length = k + 1 := ⟨length - 1, by omega⟩
  rw [constantInverse?, reverse_coeffs, List.take_succ_cons, List.head?_cons, Option.bind_some,
    LawfulField.inv?_eq_some (lead_ne_zero (toPolynomial_ne_zero nonzero))]

/-- Taking the product of quotient and divisor away leaves the remainder, all of it below the
degree of the divisor.
-/
theorem ofCoeffs_take_sub {p d product : Poly F} {length : Nat} {quotient remainder : List F}
    (divided : Divided p.coeffs.reverse d.coeffs.reverse length quotient remainder)
    (multiple : product.toPolynomial = (ofCoeffs quotient.reverse).toPolynomial * d.toPolynomial)
    : ofCoeffs ((CoeffList.sub p.coeffs product.coeffs).take d.degree)
      = ofCoeffs remainder.reverse := by
  have polynomial := divided.polynomial
  rw [List.reverse_reverse, List.reverse_reverse] at polynomial
  rw [toPolynomial_ofCoeffs] at multiple
  have lists : CoeffList.toPolynomial product.coeffs
      = CoeffList.toPolynomial quotient.reverse * CoeffList.toPolynomial d.coeffs := multiple
  have rest : CoeffList.toPolynomial (CoeffList.sub p.coeffs product.coeffs)
      = CoeffList.toPolynomial remainder.reverse := by
    rw [CoeffList.toPolynomial_sub, polynomial, lists, add_sub_cancel_left]
  have small := degree_remainder_lt divided
  rw [← rest] at small
  apply toPolynomial_injective
  rw [toPolynomial_ofCoeffs, toPolynomial_ofCoeffs, CoeffList.toPolynomial_take small, rest]

/-- The series division finds the same lists. The beginning of the quotient of the series is the
quotient, and the remainder is what the product of both leaves below the degree of the divisor.
-/
theorem seriesDivRem_yields {p d : Poly F} (nonzero : d ≠ zero) (larger : d.degree ≤ p.degree)
    {quotient remainder : List F}
    (divided
      : Divided p.coeffs.reverse d.coeffs.reverse (p.quotientLength d) quotient remainder)
    : (p.seriesDivRem d).Yields (ofCoeffs quotient.reverse, ofCoeffs remainder.reverse) := by
  obtain ⟨length, lengthEq⟩ : ∃ length, length = p.quotientLength d := ⟨_, rfl⟩
  rw [← lengthEq] at divided
  have positive : 0 < length := lengthEq ▸ Nat.succ_pos _
  have long : length ≤ p.coeffs.reverse.length := by
    rw [List.length_reverse, length_coeffs, lengthEq, quotientLength]
    omega
  obtain ⟨inverse, inverts, inverseSeries⟩ := ExactKernels.exists_seriesInverse_yields _ _
    (constantInverse?_reverse nonzero positive) length
  have convolves := ExactKernels.convolve_yields (p.coeffs.reverse.take length) inverse
  obtain ⟨product, multiplies, multiple⟩ := exists_mul_yields (ofCoeffs quotient.reverse) d
  unfold seriesDivRem
  simp only [← lengthEq]
  refine (Logged.yields_emit _).bind (inverts.bind (convolves.bind ?_))
  rw [divided.take_schoolbook positive long inverseSeries]
  refine multiplies.bind ?_
  rw [ofCoeffs_take_sub divided multiple]
  exact Logged.yields_pure _

-----------------------------------------------------------------------------------------
-- The division
-----------------------------------------------------------------------------------------

/-- The dividend is the quotient times the divisor plus the remainder, and the remainder is zero or
of lower degree than the divisor.
-/
structure IsDivision (p d q r : Poly F) : Prop where
  identity : ((·.add r) <$> q.mul d).Yields p
  small : r = zero ∨ r.degree < d.degree

theorem degree_lt_iff {r d : Poly F} (nonzero : d ≠ zero)
    : (r = zero ∨ r.degree < d.degree) ↔ r.toPolynomial.degree < d.toPolynomial.degree := by
  have divisor := toPolynomial_ne_zero nonzero
  constructor
  · rintro (rfl | smaller)
    · rw [toPolynomial_zero, degree_zero]
      exact bot_lt_iff_ne_bot.mpr (degree_ne_bot.mpr divisor)
    · apply Polynomial.degree_lt_degree
      rwa [natDegree_toPolynomial, natDegree_toPolynomial]
  · intro smaller
    rw [← toPolynomial_eq_zero_iff]
    by_cases zero : r.toPolynomial = 0
    · exact .inl zero
    · have degrees := natDegree_lt_natDegree zero smaller
      rw [natDegree_toPolynomial, natDegree_toPolynomial] at degrees
      exact .inr degrees

/-- A division in terms of the polynomials of algebra. -/
theorem isDivision_iff {p d q r : Poly F} (nonzero : d ≠ zero)
    : IsDivision p d q r
      ↔ p.toPolynomial = q.toPolynomial * d.toPolynomial + r.toPolynomial
        ∧ r.toPolynomial.degree < d.toPolynomial.degree := by
  obtain ⟨product, yields, productEq⟩ := exists_mul_yields q d
  have identity : ((·.add r) <$> q.mul d).Yields p
      ↔ p.toPolynomial = q.toPolynomial * d.toPolynomial + r.toPolynomial := by
    rw [← productEq, ← toPolynomial_add, toPolynomial_injective.eq_iff, eq_comm]
    constructor
    · intro runs
      exact (yields.map (·.add r)).unique runs
    · rintro rfl
      exact yields.map (·.add r)
  rw [← identity, ← degree_lt_iff nonzero]
  exact ⟨fun division => ⟨division.identity, division.small⟩,
    fun both => ⟨both.1, both.2⟩⟩

/-- The identity of a division and the bound on its remainder leave one quotient and one remainder:
a multiple of the divisor of lower degree is zero.
-/
theorem eq_div_and_eq_mod {K : Type} [Field K] {p d q r : K[X]} (nonzero : d ≠ 0)
    (identity : p = q * d + r) (small : r.degree < d.degree)
    : q = p / d ∧ r = p % d := by
  have whole : d * (p / d) + p % d = p := EuclideanDomain.div_add_mod p d
  have multiple : (q - p / d) * d = p % d - r := by
    linear_combination -identity - whole
  have smaller : (p % d - r).degree < d.degree :=
    (degree_sub_le _ _).trans_lt (max_lt (degree_mod_lt p nonzero) small)
  -- A factor other than zero would bring the multiple up to the degree of the divisor.
  have quotients : q - p / d = 0 := by
    by_contra different
    have larger := degree_le_mul_left d different
    rw [mul_comm, multiple] at larger
    exact absurd smaller larger.not_gt
  have remainders : p % d - r = 0 := by
    rw [← multiple, quotients, zero_mul]
  exact ⟨sub_eq_zero.mp quotients, (sub_eq_zero.mp remainders).symm⟩

/-- A division is the division of algebra. -/
theorem IsDivision.eq_div_and_eq_mod {p d q r : Poly F} (nonzero : d ≠ zero)
    (division : IsDivision p d q r)
    : q.toPolynomial = p.toPolynomial / d.toPolynomial
      ∧ r.toPolynomial = p.toPolynomial % d.toPolynomial := by
  obtain ⟨identity, small⟩ := (isDivision_iff nonzero).mp division
  exact Poly.eq_div_and_eq_mod (toPolynomial_ne_zero nonzero) identity small

/-- Two divisions by the same divisor agree. -/
theorem IsDivision.unique {p d q r q' r' : Poly F} (nonzero : d ≠ zero)
    (first : IsDivision p d q r) (second : IsDivision p d q' r')
    : q' = q ∧ r' = r := by
  obtain ⟨quotient, remainder⟩ := first.eq_div_and_eq_mod nonzero
  obtain ⟨quotient', remainder'⟩ := second.eq_div_and_eq_mod nonzero
  exact ⟨toPolynomial_injective (quotient'.trans quotient.symm),
    toPolynomial_injective (remainder'.trans remainder.symm)⟩

/-- The lists of a division give a division. -/
theorem isDivision_of_divided {p d : Poly F} (nonzero : d ≠ zero) {length : Nat}
    {quotient remainder : List F}
    (divided : Divided p.coeffs.reverse d.coeffs.reverse length quotient remainder)
    : IsDivision p d (ofCoeffs quotient.reverse) (ofCoeffs remainder.reverse) := by
  rw [isDivision_iff nonzero, toPolynomial_ofCoeffs, toPolynomial_ofCoeffs]
  constructor
  · have polynomial := divided.polynomial
    rw [List.reverse_reverse, List.reverse_reverse] at polynomial
    exact polynomial
  · rw [degree_eq_natDegree (toPolynomial_ne_zero nonzero),
      natDegree_toPolynomial]
    exact degree_remainder_lt divided

/-- A dividend that is zero or of lower degree is its own remainder. -/
theorem isDivision_self {p d : Poly F} (nonzero : d ≠ zero)
    (small : p = zero ∨ p.degree < d.degree)
    : IsDivision p d zero p := by
  rw [isDivision_iff nonzero, toPolynomial_zero, zero_mul, zero_add]
  exact ⟨rfl, (degree_lt_iff nonzero).mp small⟩

/-- Wherever both methods apply they yield the same division. -/
theorem exists_methods_yield {p d : Poly F} (nonzero : d ≠ zero) (larger : d.degree ≤ p.degree)
    : ∃ q r,
        p.longDivRem d = .ok (q, r) ∧ (p.seriesDivRem d).Yields (q, r)
          ∧ IsDivision p d q r := by
  obtain ⟨quotient, remainder, long, divided⟩ := exists_longDivRem_eq nonzero larger
  exact ⟨_, _, long, seriesDivRem_yields nonzero larger divided,
    isDivision_of_divided nonzero divided⟩

theorem divRem_zero (p : Poly F) : p.divRem zero = Logged.refuse .divisionByZero := by
  rw [divRem, if_pos ((isZero_iff zero).mpr rfl)]

/-- Division by a polynomial that is not zero yields a division, by cases on the method. -/
theorem exists_divRem_yields (p : Poly F) {d : Poly F} (nonzero : d ≠ zero)
    : ∃ q r, (p.divRem d).Yields (q, r) ∧ IsDivision p d q r := by
  rw [divRem, if_neg ((isZero_iff d).not.mpr nonzero)]
  split
  · rename_i small
    rw [Bool.or_eq_true, isZero_iff, decide_eq_true_eq] at small
    exact ⟨zero, p, Logged.yields_pure _, isDivision_self nonzero small⟩
  · rename_i large
    have larger : d.degree ≤ p.degree := by
      rw [Bool.or_eq_true, decide_eq_true_eq] at large
      exact Nat.le_of_not_lt fun lower => large (.inr lower)
    obtain ⟨q, r, long, series, division⟩ := exists_methods_yield nonzero larger
    refine ⟨q, r, ?_, division⟩
    split
    · rw [long]
      exact Logged.yields_pure _
    · exact series

/-- The caller's promise of a proper divisor is all that a remainder needs. -/
theorem exists_remainder_yields (p : Poly F) {d : Poly F} (nonzero : d ≠ zero)
    : ∃ q r, (p.remainder d).Yields r ∧ IsDivision p d q r := by
  obtain ⟨q, r, yields, division⟩ := exists_divRem_yields p nonzero
  exact ⟨q, r, (yields.map Prod.snd).insist, division⟩

/-- Division fails for the divisor zero only, and with that refusal. Every other divisor has
exactly one division, and `divRem` yields it. Where the dividend has at least the degree of the
divisor, each of the two methods yields it too, whatever the lengths.
-/
theorem divRem_exact {F : Type} [KernelField F] [LibraryField F] (p d : Poly F)
    : (∀ fault, (p.divRem d).outcome = .error fault
          ↔ d = zero ∧ fault = .refused .divisionByZero)
      ∧ (d ≠ zero
          → ∃ q r, (p.divRem d).Yields (q, r) ∧ IsDivision p d q r
              ∧ ∀ q' r', IsDivision p d q' r' → q' = q ∧ r' = r)
      ∧ (d ≠ zero → d.degree ≤ p.degree
          → ∃ q r, p.longDivRem d = .ok (q, r) ∧ (p.seriesDivRem d).Yields (q, r)
              ∧ IsDivision p d q r) := by
  refine ⟨?_, ?_, exists_methods_yield⟩
  · intro fault
    by_cases zero : d = zero
    · rw [zero, divRem_zero, Logged.outcome_refuse, Except.error.injEq, eq_comm]
      simp
    · obtain ⟨q, r, yields, _⟩ := exists_divRem_yields p zero
      have ends : (p.divRem d).outcome = .ok (q, r) := yields
      simp [ends, zero]
  · intro nonzero
    obtain ⟨q, r, yields, division⟩ := exists_divRem_yields p nonzero
    exact ⟨q, r, yields, division, fun _ _ other => division.unique nonzero other⟩

theorem divRem_exact_seventeen
    : linear (3 : Residue Modulus.seventeen) ≠ zero
      ∧ (linear (3 : Residue Modulus.seventeen)).degree
        ≤ (monomial (1 : Residue Modulus.seventeen) 2).degree
      ∧ ((monomial 1 2).divRem (linear (3 : Residue Modulus.seventeen))).Yields
          (ofCoeffs [3, 1], ofCoeffs [9])
      ∧ ((monomial 1 2).seriesDivRem (linear (3 : Residue Modulus.seventeen))).Yields
          (ofCoeffs [3, 1], ofCoeffs [9])
      ∧ IsDivision (monomial 1 2) (linear (3 : Residue Modulus.seventeen))
          (ofCoeffs [3, 1]) (ofCoeffs [9]) := by
  have nonzero : linear (3 : Residue Modulus.seventeen) ≠ zero := by decide
  have larger : (linear (3 : Residue Modulus.seventeen)).degree
      ≤ (monomial (1 : Residue Modulus.seventeen) 2).degree := by decide
  have written : (monomial 1 2).longDivRem (linear (3 : Residue Modulus.seventeen))
      = .ok (ofCoeffs [3, 1], ofCoeffs [9]) := by decide +kernel
  obtain ⟨_, divides, methods⟩ :=
    divRem_exact (monomial 1 2) (linear (3 : Residue Modulus.seventeen))
  obtain ⟨q, r, yields, _, unique⟩ := divides nonzero
  obtain ⟨q', r', long, series, division⟩ := methods nonzero larger
  obtain ⟨rfl, rfl⟩ := unique q' r' division
  have pair : (q', r') = (ofCoeffs [3, 1], ofCoeffs [9]) :=
    Except.ok.inj (long.symm.trans written)
  obtain ⟨rfl, rfl⟩ := Prod.mk.inj pair
  exact ⟨nonzero, larger, yields, series, division⟩

end Poly

end FastAlgebra
