import Mathlib
import FastAlgebra.SeriesInverse
import FastAlgebra.Proofs.Product
import FastAlgebra.Proofs.Dyadic

/-! Newton's iteration inverts a power series. The error of an inverse is squared by every step,
so the precision doubles; what a step reads or keeps beyond the new precision does not matter.
The inverse of a series to a given precision is unique, so every way to compute it agrees.
-/

namespace FastAlgebra

open CoeffList Polynomial

/-- The list `b` holds the first `n` coefficients of the inverse of the series `a`. -/
structure InverseSeries {R : Type} [CommRing R] (a b : List R) (n : Nat) : Prop where
  length : b.length = n
  unit : X ^ n ∣ toPolynomial a * toPolynomial b - 1

namespace InverseSeries

variable {R : Type} [CommRing R] {a b c : List R} {n : Nat}

/-- A series has at most one inverse of a given precision. -/
theorem unique (first : InverseSeries a b n) (second : InverseSeries a c n) : b = c := by
  have difference : X ^ n ∣ toPolynomial b - toPolynomial c := by
    have expanded : toPolynomial b - toPolynomial c
        = toPolynomial c * (toPolynomial a * toPolynomial b - 1)
          - toPolynomial b * (toPolynomial a * toPolynomial c - 1) := by ring
    rw [expanded]
    exact dvd_sub (dvd_mul_of_dvd_right first.unit _) (dvd_mul_of_dvd_right second.unit _)
  exact ext_of_X_pow_dvd first.length second.length difference

/-- To precision zero the empty list inverts every series. -/
theorem zero (a : List R) : InverseSeries a [] 0 := by
  refine ⟨rfl, ?_⟩
  rw [pow_zero]
  exact one_dvd _

/-- Cutting an inverse lowers its precision. -/
theorem take (inverse : InverseSeries a b n) {k : Nat} (h : k ≤ n)
    : InverseSeries a (b.take k) k := by
  refine ⟨by rw [List.length_take, inverse.length, Nat.min_eq_left h], ?_⟩
  have expanded : toPolynomial a * toPolynomial (b.take k) - 1
      = toPolynomial a * toPolynomial b - 1
        - toPolynomial a * (toPolynomial b - toPolynomial (b.take k)) := by ring
  rw [expanded]
  exact dvd_sub ((pow_dvd_pow X h).trans inverse.unit)
    (dvd_mul_of_dvd_right (X_pow_dvd_sub_take k b) _)

/-- The inverse of the constant term is an inverse of precision one. -/
theorem of_constant {c start : R} (rest : List R) (h : c * start = 1)
    : InverseSeries (c :: rest) [start] 1 := by
  refine ⟨rfl, ?_⟩
  have expanded : toPolynomial (c :: rest) * toPolynomial [start] - 1
      = X * (toPolynomial rest * C start) := by
    rw [toPolynomial_singleton, toPolynomial, add_mul, ← C_mul, h, C_1]
    ring
  rw [expanded, pow_one]
  exact dvd_mul_right _ _

/-- A step of the iteration: up to twice the precision, a list that agrees with `b (2 - a b)`
inverts the series, because its error is the square of the error of `b`.
-/
theorem next (inverse : InverseSeries a b n) {k : Nat} (h : k ≤ 2 * n)
    (step : X ^ k ∣ toPolynomial c
      - toPolynomial b * (2 - toPolynomial a * toPolynomial b))
    : InverseSeries a (c.take k) (c.take k).length := by
  refine ⟨rfl, ?_⟩
  have short : X ^ (c.take k).length ∣ (X : R[X]) ^ k := pow_dvd_pow X (List.length_take_le k c)
  have squared : X ^ k ∣ (toPolynomial a * toPolynomial b - 1) ^ 2 := by
    rw [sq]
    refine (pow_dvd_pow X h).trans ?_
    rw [two_mul, pow_add]
    exact mul_dvd_mul inverse.unit inverse.unit
  have expanded : toPolynomial a * toPolynomial (c.take k) - 1
      = toPolynomial a * (toPolynomial c
            - toPolynomial b * (2 - toPolynomial a * toPolynomial b))
        - toPolynomial a * (toPolynomial c - toPolynomial (c.take k))
        - (toPolynomial a * toPolynomial b - 1) ^ 2 := by ring
  rw [expanded]
  exact short.trans (dvd_sub (dvd_sub (dvd_mul_of_dvd_right step _)
    (dvd_mul_of_dvd_right (X_pow_dvd_sub_take k c) _)) squared)

/-- Only the beginning of the series counts for a step. -/
theorem X_pow_dvd_step_take (k : Nat) (a b : List R)
    : X ^ k ∣ toPolynomial b * (2 - toPolynomial (a.take k) * toPolynomial b)
        - toPolynomial b * (2 - toPolynomial a * toPolynomial b) := by
  have expanded : toPolynomial b * (2 - toPolynomial (a.take k) * toPolynomial b)
        - toPolynomial b * (2 - toPolynomial a * toPolynomial b)
      = toPolynomial b * toPolynomial b * (toPolynomial a - toPolynomial (a.take k)) := by ring
  rw [expanded]
  exact dvd_mul_of_dvd_right (X_pow_dvd_sub_take k a) _

/-- A step on the beginning of the series stays below four times the precision. -/
theorem degree_step_lt {start : List R} (positive : 0 < n) (short : start.length ≤ 2 * n)
    (length : b.length = n)
    : (toPolynomial b * (2 - toPolynomial start * toPolynomial b)).degree < (4 * n : Nat) := by
  have error : 2 - toPolynomial start * toPolynomial b
      = toPolynomial (CoeffList.sub [2] (schoolbook start b)) := by
    rw [toPolynomial_sub, toPolynomial_schoolbook, toPolynomial_singleton]
    rfl
  have product := length_schoolbook_le start b
  have bound : b.length + (CoeffList.sub [2] (schoolbook start b)).length - 1 ≤ 4 * n := by
    rw [length_sub, List.length_singleton]
    omega
  rw [error]
  exact (degree_mul_toPolynomial_lt _ _).trans_le (by exact_mod_cast bound)

end InverseSeries

/-- The product of lists is exact. -/
def ExactProduct {F : Type} [Zero F] [Add F] [Mul F] (product : ListProduct F) : Prop :=
  ∀ a b, (product a b).Yields (schoolbook a b)

/-- Karatsuba's product is exact. -/
theorem exactProduct_karatsuba {R : Type} [CoeffRing R] [LawfulRing R]
    : ExactProduct (fun a b : List R => pure (karatsuba a b)) := by
  intro a b
  exact (Logged.yields_pure_iff _ _).mpr (karatsuba_eq_schoolbook a b)

section Newton

variable {F : Type} [CoeffField F] [LawfulRing F] {product : ListProduct F} {a b : List F}

/-- A step brings the inverse to twice the precision, or to the bound if that is less. -/
theorem exists_newtonStep_yields (exact : ExactProduct product) {k n : Nat} (positive : 0 < k)
    (bounded : k < n) (inverse : InverseSeries a b k)
    : ∃ c, (newtonStep product a n b k).Yields c ∧ InverseSeries a c (min (2 * k) n) := by
  obtain ⟨precision, same⟩ : ∃ p, p = min (2 * k) n := ⟨_, rfl⟩
  rw [← same]
  have large : 0 < precision := by omega
  have unit := exact (a.take precision) b
  obtain ⟨correction, form⟩ : ∃ c, c = CoeffList.sub [1 + 1]
      (resize precision (schoolbook (a.take precision) b)) := ⟨_, rfl⟩
  have next := exact b correction
  refine ⟨(schoolbook b correction).take precision, ?_, ?_⟩
  · simp only [newtonStep, ← same]
    refine unit.bind ?_
    rw [← form]
    exact next.bind ((Logged.yields_emit _).bind (Logged.yields_pure _))
  · have correctionLength : correction.length = precision := by
      rw [form, length_sub, length_resize, List.length_singleton]
      omega
    have bNonempty : b ≠ [] := List.ne_nil_of_length_pos (inverse.length ▸ positive)
    have correctionNonempty : correction ≠ [] :=
      List.ne_nil_of_length_pos (correctionLength ▸ large)
    have length : ((schoolbook b correction).take precision).length = precision := by
      rw [List.length_take, length_schoolbook bNonempty correctionNonempty, inverse.length,
        correctionLength]
      omega
    have step : X ^ precision ∣ toPolynomial (schoolbook b correction)
        - toPolynomial b * (2 - toPolynomial a * toPolynomial b) := by
      have constant : (C (1 + 1 : F) : F[X]) = 2 := by
        rw [C_add, C_1]
        norm_num
      have expanded : toPolynomial (schoolbook b correction)
            - toPolynomial b * (2 - toPolynomial a * toPolynomial b)
          = toPolynomial b * (toPolynomial (schoolbook (a.take precision) b)
              - toPolynomial ((schoolbook (a.take precision) b).take precision))
            + (toPolynomial b * (2 - toPolynomial (a.take precision) * toPolynomial b)
              - toPolynomial b * (2 - toPolynomial a * toPolynomial b)) := by
        rw [toPolynomial_schoolbook, form, toPolynomial_sub, toPolynomial_resize,
          toPolynomial_singleton, constant, toPolynomial_schoolbook]
        ring
      rw [expanded]
      exact dvd_add (dvd_mul_of_dvd_right (X_pow_dvd_sub_take _ _) _)
        (InverseSeries.X_pow_dvd_step_take precision a b)
    have doubled : precision ≤ 2 * k := by omega
    have found := inverse.next doubled step
    rwa [length] at found

/-- Where the constant term has an inverse the iteration yields the inverse of the series. -/
theorem exists_newtonInverse_yields (exact : ExactProduct product)
    (inverts : ∀ x y : F, CoeffField.inv? x = some y → x * y = 1) {start : F}
    (invertible : constantInverse? a = some start) (n : Nat)
    : ∃ b, (newtonInverse product a n).Yields b ∧ InverseSeries a b n := by
  rcases Nat.eq_zero_or_pos n with rfl | positive
  · exact ⟨[], Logged.yields_pure _, .zero a⟩
  cases a with
  | nil => simp [constantInverse?] at invertible
  | cons c rest =>
      obtain ⟨last, b, reached, runs, inverse⟩ :=
        Logged.foldlM_doublings_yields (f := newtonStep product (c :: rest) n) (n := n)
          (motive := fun k b => InverseSeries (c :: rest) b (min k n)) Nat.one_pos
          (by
            rw [Nat.min_eq_left positive]
            exact .of_constant rest (inverts c start invertible))
          (by
            intro k b above below inverse
            rw [Nat.min_eq_left below.le] at inverse
            exact exists_newtonStep_yields exact above below inverse)
      rw [Nat.min_eq_right reached] at inverse
      refine ⟨b, ?_, inverse⟩
      rw [newtonInverse, if_neg positive.ne', invertible]
      exact runs

end Newton

/-- Where the constant term has no inverse the iteration refuses. -/
theorem newtonInverse_eq_refuse {F : Type} [CoeffField F] (product : ListProduct F) {a : List F}
    (missing : constantInverse? a = none) {n : Nat} (positive : n ≠ 0)
    : newtonInverse product a n = Logged.refuse .notInvertible := by
  rw [newtonInverse, if_neg positive, missing]

end FastAlgebra
