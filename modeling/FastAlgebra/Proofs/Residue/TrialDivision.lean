import Mathlib
import FastAlgebra.Residue.RootOfUnity

/-! Trial division finds the prime factors of a number, each once and in ascending order. Whenever a
divisor is tried, no smaller prime divides what is left, so a divisor that divides it is prime, and
what is left below the square of the divisor is prime as well.
-/

namespace FastAlgebra

-----------------------------------------------------------------------------------------
-- Taking a factor out
-----------------------------------------------------------------------------------------

theorem withoutFactor_pos {d n : Nat} (positive : 0 < n) : 0 < withoutFactor d n := by
  fun_induction withoutFactor d n with
  | case1 n divides ih =>
      have whole : d ≤ n := Nat.le_of_dvd positive (Nat.dvd_of_mod_eq_zero divides.2.2)
      exact ih (Nat.div_pos whole (by omega))
  | case2 n kept => exact positive

theorem withoutFactor_dvd (d n : Nat) : withoutFactor d n ∣ n := by
  fun_induction withoutFactor d n with
  | case1 n divides ih => exact ih.trans (Nat.div_dvd_of_dvd (Nat.dvd_of_mod_eq_zero divides.2.2))
  | case2 n kept => exact dvd_rfl

/-- Every factor is taken out, by induction on what is left. -/
theorem not_dvd_withoutFactor {d n : Nat} (large : 1 < d) (positive : 0 < n)
    : ¬ d ∣ withoutFactor d n := by
  fun_induction withoutFactor d n with
  | case1 n divides ih =>
      have whole : d ≤ n := Nat.le_of_dvd positive (Nat.dvd_of_mod_eq_zero divides.2.2)
      exact ih (Nat.div_pos whole (by omega))
  | case2 n kept => exact fun divides => kept ⟨large, positive, Nat.mod_eq_zero_of_dvd divides⟩

/-- A prime that does not divide the factor stays, by induction on what is left. -/
theorem dvd_withoutFactor {d n q : Nat} (prime : q.Prime) (foreign : ¬ q ∣ d) (divides : q ∣ n)
    : q ∣ withoutFactor d n := by
  fun_induction withoutFactor d n with
  | case1 n whole ih =>
      apply ih
      have product : q ∣ d * (n / d) := by
        rwa [Nat.mul_div_cancel' (Nat.dvd_of_mod_eq_zero whole.2.2)]
      exact (prime.dvd_mul.mp product).resolve_left foreign
  | case2 n kept => exact divides

-----------------------------------------------------------------------------------------
-- Stages
-----------------------------------------------------------------------------------------

namespace TrialDivision

/-- No prime below the divisor divides what is left. -/
structure Screened (trial : TrialDivision) : Prop where
  large : 1 < trial.divisor
  positive : 0 < trial.rest
  divisor_le : ∀ q, q.Prime → q ∣ trial.rest → trial.divisor ≤ q

namespace Screened

variable {trial : TrialDivision}

/-- A divisor that divides what is left is prime: its least factor is no smaller. -/
theorem prime_divisor (screened : trial.Screened) (divides : trial.divisor ∣ trial.rest)
    : trial.divisor.Prime := by
  have least := Nat.minFac_prime screened.large.ne'
  have reached := screened.divisor_le _ least ((Nat.minFac_dvd _).trans divides)
  rwa [Nat.le_antisymm reached (Nat.minFac_le (by have := screened.large; omega))]

/-- What is left below the square of the divisor is one or a prime. -/
theorem prime_rest (screened : trial.Screened) (done : ¬ trial.Continues) (more : 1 < trial.rest)
    : trial.rest.Prime := by
  by_contra composite
  have least := Nat.minFac_prime more.ne'
  have reached := screened.divisor_le _ least (Nat.minFac_dvd _)
  apply done
  calc trial.divisor * trial.divisor ≤ trial.rest.minFac * trial.rest.minFac :=
        Nat.mul_le_mul reached reached
    _ = trial.rest.minFac ^ 2 := (sq _).symm
    _ ≤ trial.rest := Nat.minFac_sq_le_self screened.positive composite

/-- The primes that are left are the divisor, if it divides, and those of the next stage. -/
theorem prime_dvd_rest_iff (screened : trial.Screened) {q : Nat} (prime : q.Prime)
    : q ∣ trial.rest ↔ q = trial.divisor ∧ trial.divisor ∣ trial.rest ∨ q ∣ trial.next.rest := by
  constructor
  · intro divides
    by_cases same : q = trial.divisor
    · exact .inl ⟨same, same ▸ divides⟩
    · refine .inr ?_
      by_cases whole : trial.divisor ∣ trial.rest
      · have foreign : ¬ q ∣ trial.divisor :=
          fun shared =>
            same ((Nat.prime_dvd_prime_iff_eq prime (screened.prime_divisor whole)).mp shared)
        exact dvd_withoutFactor prime foreign divides
      · have kept : trial.next.rest = trial.rest := by
          rw [TrialDivision.next, withoutFactor, if_neg]
          exact fun taken => whole (Nat.dvd_of_mod_eq_zero taken.2.2)
        rwa [kept]
  · rintro (⟨rfl, divides⟩ | later)
    · exact divides
    · exact later.trans (withoutFactor_dvd _ _)

theorem next (screened : trial.Screened) : trial.next.Screened where
  large := screened.large.trans (Nat.lt_succ_self _)
  positive := withoutFactor_pos screened.positive
  divisor_le q prime divides := by
    have reached := screened.divisor_le q prime (divides.trans (withoutFactor_dvd _ _))
    have other : trial.divisor ≠ q := by
      rintro rfl
      exact not_dvd_withoutFactor screened.large screened.positive divides
    exact Nat.lt_of_le_of_ne reached other

/-- From a stage on the primes that are left are found, by induction on the stages. -/
theorem mem_factors_iff (screened : trial.Screened) (q : Nat)
    : q ∈ trial.factors ↔ q.Prime ∧ q ∣ trial.rest := by
  fun_induction factors trial with
  | case1 trial more divides ih =>
      have whole := Nat.dvd_of_mod_eq_zero divides
      rw [List.mem_cons, ih screened.next]
      constructor
      · rintro (rfl | ⟨prime, later⟩)
        · exact ⟨screened.prime_divisor whole, whole⟩
        · exact ⟨prime, (screened.prime_dvd_rest_iff prime).mpr (.inr later)⟩
      · rintro ⟨prime, left⟩
        exact ((screened.prime_dvd_rest_iff prime).mp left).imp And.left fun later => ⟨prime, later⟩
  | case2 trial more kept ih =>
      rw [ih screened.next]
      refine and_congr_right fun prime => ?_
      rw [screened.prime_dvd_rest_iff prime, or_iff_right]
      exact fun taken => kept (Nat.mod_eq_zero_of_dvd taken.2)
  | case3 trial done more =>
      have prime := screened.prime_rest done more
      rw [List.mem_singleton]
      constructor
      · rintro rfl
        exact ⟨prime, dvd_rfl⟩
      · rintro ⟨other, divides⟩
        exact (Nat.prime_dvd_prime_iff_eq other prime).mp divides
  | case4 trial done none =>
      have one : trial.rest = 1 := by
        have := screened.positive
        omega
      rw [one, Nat.dvd_one]
      exact iff_of_false List.not_mem_nil fun ⟨prime, same⟩ => prime.one_lt.ne' same

/-- The factors ascend, because those of the next stage are not below its divisor. -/
theorem pairwise_factors (screened : trial.Screened) : trial.factors.Pairwise (· < ·) := by
  fun_induction factors trial with
  | case1 trial more divides ih =>
      refine List.pairwise_cons.mpr ⟨?_, ih screened.next⟩
      intro q member
      obtain ⟨prime, later⟩ := (screened.next.mem_factors_iff q).mp member
      exact screened.next.divisor_le q prime later
  | case2 trial more kept ih => exact ih screened.next
  | case3 trial done more => exact List.pairwise_singleton _ _
  | case4 trial done none => exact List.Pairwise.nil

end Screened

/-- No prime is below two. -/
theorem screened_two {n : Nat} (positive : 0 < n) : (mk 2 n).Screened where
  large := Nat.one_lt_two
  positive := positive
  divisor_le _ prime _ := prime.two_le

end TrialDivision

-----------------------------------------------------------------------------------------
-- All factors
-----------------------------------------------------------------------------------------

theorem mem_distinctPrimeFactors_iff {n : Nat} (positive : 0 < n) (q : Nat)
    : q ∈ distinctPrimeFactors n ↔ q.Prime ∧ q ∣ n :=
  (TrialDivision.screened_two positive).mem_factors_iff q

theorem pairwise_distinctPrimeFactors {n : Nat} (positive : 0 < n)
    : (distinctPrimeFactors n).Pairwise (· < ·) :=
  (TrialDivision.screened_two positive).pairwise_factors

end FastAlgebra
