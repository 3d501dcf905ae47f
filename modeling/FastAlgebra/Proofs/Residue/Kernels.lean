import Mathlib
import FastAlgebra.KernelField
import FastAlgebra.Proofs.SeriesInverse
import FastAlgebra.Proofs.Transform.Correctness

/-! The kernels of residues modulo a prime are exact, whichever algorithm they choose. Products are
the same by Karatsuba's method and by transforms, and inverses of series are the same by products
and by transforms.
-/

namespace FastAlgebra.Residue

open CoeffList Polynomial

variable {m : Modulus}

/-- Each side of the choice yields the product by the definition. -/
theorem convolve_yields [Fact m.toNat.Prime] : ExactProduct (convolve (m := m)) := by
  intro a b
  unfold convolve
  split
  · rename_i empty
    rw [schoolbook_eq_nil ((isEmpty_or_isEmpty_iff a b).mp empty)]
    exact Logged.yields_pure _
  · split
    · rw [karatsuba_eq_schoolbook]
      exact Logged.yields_pure _
    · rename_i supported
      exact Transform.convolve_yields a b (by omega)

/-- For every prime and for operands of any lengths the product is exact: it is empty where an
operand is, and otherwise it has the length of a product and the sums of products as coefficients.
Karatsuba's method computes the same list, and so do transforms wherever their length is supported.
-/
theorem convolve_exact [Fact m.toNat.Prime] (a b : List (Residue m))
    : ∃ c,
        (KernelField.convolve a b).Yields c
          ∧ (a = [] ∨ b = [] → c = [])
          ∧ (a ≠ [] → b ≠ [] → c.length = a.length + b.length - 1)
          ∧ (∀ k, CoeffList.coeff c k
              = ∑ i ∈ Finset.range (k + 1), CoeffList.coeff a i * CoeffList.coeff b (k - i))
          ∧ karatsuba a b = c
          ∧ ((a.length + b.length - 1).nextPowerOfTwo ≤ TransformScalar.maxLength (Residue m)
              → (Transform.convolve a b).Yields c) := by
  refine ⟨schoolbook a b, convolve_yields a b, schoolbook_eq_nil, ?_, coeff_schoolbook a b,
    karatsuba_eq_schoolbook a b, Transform.convolve_yields a b⟩
  intro left right
  exact length_schoolbook left right

theorem convolve_exact_seventeen
    : ∃ c : List (Residue Modulus.seventeen),
        (KernelField.convolve [3, 5] [7, 11, 13]).Yields c
          ∧ c.length = 4
          ∧ CoeffList.coeff c 2 = 3 * 13 + 5 * 11 := by
  obtain ⟨c, runs, _, length, coeffs, _⟩ :=
    convolve_exact (m := Modulus.seventeen) [3, 5] [7, 11, 13]
  refine ⟨c, runs, length (by simp) (by simp), ?_⟩
  rw [coeffs, Finset.sum_range_succ, Finset.sum_range_succ, Finset.sum_range_one]
  simp [CoeffList.coeff]

section Transform

variable [Fact m.toNat.Prime]

/-- Forming the step point by point brings back its coefficients: its degree stays below four
times the precision, so nothing wraps around.
-/
theorem exists_transformInverseStep_yields {plan : Plan (Residue m)} {t s : Nat}
    (tables : plan.Tables t) {a b : List (Residue m)} (covered : s + 2 ≤ t)
    (supported : s + 2 ≤ m.twoAdicity) (inverse : InverseSeries a b (2 ^ s))
    : ∃ c, (transformInverseStep plan a b (2 ^ s)).Yields c
        ∧ InverseSeries a c (2 * 2 ^ s) := by
  have quadruple : 4 * 2 ^ s = 2 ^ (s + 2) := by ring
  have bFits : b.length ≤ 2 ^ (s + 2) := by
    rw [inverse.length]
    omega
  obtain ⟨start, begins⟩ : ∃ c, c = a.take (2 * 2 ^ s) := ⟨_, rfl⟩
  have startLength : start.length ≤ 2 * 2 ^ s := begins ▸ List.length_take_le _ a
  have two : (ofNat 2 : Residue m) = 2 := (LawfulRing.ofNat_eq_cast 2).trans Nat.cast_ofNat
  have startFits : start.length ≤ 2 ^ (s + 2) := by omega
  have values := (tables.transform_values covered supported bFits).zipWith
    (tables.transform_values covered supported startFits)
    (f := fun x y => x * (ofNat 2 - y * x) * TransformScalar.inverseLength (2 ^ (s + 2)))
    (r := toPolynomial b * (2 - toPolynomial start * toPolynomial b)
      * C (TransformScalar.inverseLength (2 ^ (s + 2))))
    (fun z => by rw [eval_mul, eval_C, eval_mul, eval_sub, eval_mul, eval_ofNat, two])
  have small := InverseSeries.degree_step_lt (Nat.two_pow_pos s) startLength inverse.length
  rw [quadruple] at small
  have product := tables.toPolynomial_transform_reflect covered supported small values
  have length := (plan.length_transform _).trans ((length_reflect _).trans values.length)
  refine ⟨_, (Logged.yields_emit _).bind (Logged.yields_pure _), ?_⟩
  simp only [← begins, quadruple]
  have close := InverseSeries.X_pow_dvd_step_take (2 * 2 ^ s) a b
  rw [← begins, ← product] at close
  have found := inverse.next (Nat.le_refl _) close
  rwa [List.length_take, length, Nat.min_eq_left (by omega)] at found

/-- Where the modulus supports the transforms of twice the rounded precision, the iteration by
transforms yields the inverse.
-/
theorem exists_transformInverse_yields {a : List (Residue m)} {start : Residue m}
    (invertible : constantInverse? a = some start) {n : Nat}
    (supported : 2 * n.nextPowerOfTwo ≤ TransformScalar.maxLength (Residue m))
    : ∃ b, (transformInverse a n).Yields b ∧ InverseSeries a b n := by
  rcases Nat.eq_zero_or_pos n with rfl | positive
  · exact ⟨[], Logged.yields_pure _, rfl, by rw [pow_zero]; exact one_dvd _⟩
  cases a with
  | nil => simp [constantInverse?] at invertible
  | cons c rest =>
      obtain ⟨v, rounded⟩ := exists_nextPowerOfTwo_eq n
      have longest : TransformScalar.maxLength (Residue m) = 2 ^ m.twoAdicity :=
        LawfulScalar.laws.maxLength_eq
      rw [rounded, ← pow_succ', longest, Nat.pow_le_pow_iff_right (by omega)] at supported
      obtain ⟨t, plan, covered, reserved, tables⟩ :=
        Plan.exists_withCapacity_yields (T := Residue m) supported
      -- Every step works with four times its precision, and the last precision that is doubled is
      -- at most half of the rounded one, so the plan covers them all.
      obtain ⟨last, b, reached, runs, s, _, inverse⟩ :=
        Logged.foldlM_doublings_yields (f := transformInverseStep plan (c :: rest)) (n := n)
          (motive := fun k b => ∃ s, k = 2 ^ s ∧ InverseSeries (c :: rest) b k) Nat.one_pos
          ⟨0, rfl, .of_constant rest (LawfulField.mul_inv? c start invertible)⟩
          (by
            rintro _ b _ below ⟨s, rfl, inverse⟩
            have doubled := two_pow_succ_le_nextPowerOfTwo below
            rw [rounded, Nat.pow_le_pow_iff_right (by omega)] at doubled
            have within : s + 2 ≤ m.twoAdicity := by omega
            obtain ⟨next, runs, finer⟩ :=
              exists_transformInverseStep_yields tables (by omega) within inverse
            exact ⟨next, runs, s + 1, (pow_succ' 2 s).symm, finer⟩)
      refine ⟨b.take n, ?_, inverse.take reached⟩
      rw [transformInverse, if_neg positive.ne', invertible, rounded, ← pow_succ']
      exact reserved.bind (runs.bind (Logged.yields_pure _))

/-- Where the constant term has no inverse, the iteration by transforms refuses. -/
theorem transformInverse_eq_refuse {m : Modulus} {a : List (Residue m)}
    (missing : constantInverse? a = none) {n : Nat} (positive : n ≠ 0)
    : transformInverse a n = Logged.refuse .notInvertible := by
  rw [transformInverse, if_neg positive, missing]

/-- Each side of the choice yields the inverse of the series. -/
theorem exists_seriesInverse_yields {a : List (Residue m)} {start : Residue m}
    (invertible : constantInverse? a = some start) (n : Nat)
    : ∃ b, (seriesInverse a n).Yields b ∧ InverseSeries a b n := by
  unfold seriesInverse
  split
  · rename_i supported
    exact exists_transformInverse_yields invertible supported
  · exact exists_newtonInverse_yields convolve_yields LawfulField.mul_inv? invertible n

end Transform

end FastAlgebra.Residue
