import Mathlib
import FastAlgebra.Proofs.Series.Exponential

/-! Which series have a logarithm or an exponential, and what is answered for the others. Either
operation asks for one constant term, and then divides by the numbers below the precision, so it is
refused with the characteristic where that is one of them. For the exponential this shows in some
step of the iteration: none before it fails, and the last step reaches the whole precision.
-/

namespace FastAlgebra.Series

open Polynomial

variable {F : Type} [KernelField F]

/-- A run on a series of `n` terms is refused with `refusal` unless the constant term is the one
that is asked for, and otherwise with the characteristic if that is below `n`. In all other cases it
yields a series with the property, which no other series has.
-/
structure Decided [LawfulField F] (n : Nat) (admitted : Prop) (refusal : PolyError)
    (solves : Series F → Prop) (run : Kernel (Series F))
    : Prop where
  refused_iff : run.Fails (.refused refusal) ↔ ¬ admitted
  obstructed_iff
    : admitted → ∀ c,
        run.Fails (.refused (.zeroDivisor c)) ↔ c = ringChar F ∧ CharacteristicBelow F n
  exists_yields
    : admitted → ¬ CharacteristicBelow F n
        → ∃ s, run.Yields s ∧ ∀ other, solves other ↔ other = s

namespace Decided

variable [LawfulField F] {n : Nat} {admitted : Prop} {refusal : PolyError}
  {solves : Series F → Prop} {run : Kernel (Series F)}

/-- A constant term that is not asked for settles the run. -/
theorem of_refused (fails : run.Fails (.refused refusal)) (other : ¬ admitted)
    : Decided n admitted refusal solves run where
  refused_iff := iff_of_true fails other
  obstructed_iff due := absurd due other
  exists_yields due := absurd due other

/-- The characteristic settles the run if it is below the precision. -/
theorem of_obstructed (fails : run.Fails (.refused (.zeroDivisor (ringChar F)))) (due : admitted)
    (small : CharacteristicBelow F n) (different : refusal ≠ .zeroDivisor (ringChar F))
    : Decided n admitted refusal solves run where
  refused_iff := by
    apply iff_of_false _ (not_not_intro due)
    intro refused
    exact different (Fault.refused.inj (refused.unique fails))
  obstructed_iff _ c := by
    constructor
    · intro obstructed
      exact ⟨PolyError.zeroDivisor.inj (Fault.refused.inj (obstructed.unique fails)), small⟩
    · rintro ⟨rfl, _⟩
      exact fails
  exists_yields _ large := absurd small large

/-- The only solution settles the run if it is found. -/
theorem of_yields {s : Series F} (yields : run.Yields s) (due : admitted)
    (large : ¬ CharacteristicBelow F n) (only : ∀ other, solves other ↔ other = s)
    : Decided n admitted refusal solves run where
  refused_iff := iff_of_false (yields.not_fails _) (not_not_intro due)
  obstructed_iff _ _ := iff_of_false (yields.not_fails _) (fun small => large small.2)
  exists_yields _ _ := ⟨s, yields, only⟩

end Decided

variable {a : Series F}

-----------------------------------------------------------------------------------------
-- Logarithm
-----------------------------------------------------------------------------------------

/-- Without known terms the logarithm has none. -/
theorem log_eq_nil (none : a.precision = 0) : a.log = pure ⟨[]⟩ := by
  rw [log, if_pos none]
  rfl

variable [ExactKernels F]

theorem log_fails_of_constant (positive : 0 < a.precision) (other : a.coeff 0 ≠ 1)
    : a.log.Fails (.refused .logConstantTerm) := by
  have notOne : CoeffRing.isOne (a.coeff 0) = false := by
    rw [← Bool.not_eq_true, LawfulField.isOne_iff]
    exact other
  simp only [log, positive.ne', if_false, notOne, Bool.not_false, if_true]
  exact Logged.fails_fail _

theorem log_decided (positive : 0 < a.precision)
    : Decided a.precision (a.coeff 0 = 1) .logConstantTerm (IsLogarithm a) a.log := by
  by_cases one : a.coeff 0 = 1
  · by_cases small : CharacteristicBelow F a.precision
    · exact .of_obstructed (log_fails small one) one small nofun
    · have nonzero := nonzeroBelow_iff.mpr small
      obtain ⟨l, yields, isLog⟩ := exists_log_yields nonzero one
      refine .of_yields yields one small ?_
      intro other
      constructor
      · exact fun isOther => isOther.unique nonzero isLog
      · rintro rfl
        exact isLog
  · exact .of_refused (log_fails_of_constant positive one) one

-----------------------------------------------------------------------------------------
-- Exponential
-----------------------------------------------------------------------------------------

theorem exp_fails_of_constant (positive : 0 < a.precision) (other : a.coeff 0 ≠ 0)
    : a.exp.Fails (.refused .expConstantTerm) := by
  have nonzero := (LawfulRing.isZero_eq_false_iff _).mpr other
  simp only [exp, positive.ne', if_false, nonzero, Bool.not_false, if_true]
  exact Logged.fails_fail _

/-- A step that leads past the characteristic is refused by its logarithm. -/
theorem expStep_fails {b : List F} {k : Nat} (below : k < a.precision)
    (isLog : IsLogarithm ⟨b⟩ (a.truncate k))
    (small : CharacteristicBelow F (min (2 * k) a.precision))
    : (expStep a b k).Fails (.refused (.zeroDivisor (ringChar F))) := by
  obtain ⟨m, least⟩ : ∃ m, m = min (2 * k) a.precision := ⟨_, rfl⟩
  have known : b.length = k := isLog.length_eq below.le
  have one : (mk (CoeffList.resize m b)).coeff 0 = 1 := isLog.one_of_padded (by omega)
  have precision : (mk (CoeffList.resize m b)).precision = m := CoeffList.length_resize m b
  rw [← least, ← precision] at small
  simp only [expStep, ← least]
  exact (log_fails small one).bind _

/-- Where the characteristic is below the precision, the iteration comes to a step that leads past
it, because each step before it doubles the precision of the exponential.
-/
theorem exp_fails (small : CharacteristicBelow F a.precision) (zero : a.coeff 0 = 0)
    : a.exp.Fails (.refused (.zeroDivisor (ringChar F))) := by
  have positive : 0 < a.precision := small.positive.trans small.below
  have stops : ((doublings 1 a.precision).foldlM (expStep a) [1]).Fails
      (.refused (.zeroDivisor (ringChar F))) := by
    refine Logged.foldlM_doublings_fails
      (motive := fun k b => IsLogarithm ⟨b⟩ (a.truncate (min k a.precision))
        ∧ ¬ CharacteristicBelow F (min k a.precision)) Nat.one_pos ?_ ?_ ?_
    · rw [Nat.min_eq_left positive]
      refine ⟨isLogarithm_start positive zero, ?_⟩
      intro ⟨above, below⟩
      omega
    · intro k b _ below ⟨isLog, _⟩
      rw [Nat.min_eq_left below.le] at isLog
      by_cases past : CharacteristicBelow F (min (2 * k) a.precision)
      · exact .inl (expStep_fails below isLog past)
      · obtain ⟨c, yields, longer⟩ :=
          exists_expStep_yields (nonzeroBelow_iff.mpr past) zero below isLog
        exact .inr ⟨c, yields, longer, past⟩
    · intro last b reached ⟨_, large⟩
      rw [Nat.min_eq_right reached] at large
      exact large small
  rw [exp_eq positive zero]
  exact stops.map mk

theorem exp_decided (positive : 0 < a.precision)
    : Decided a.precision (a.coeff 0 = 0) .expConstantTerm (IsLogarithm · a) a.exp := by
  by_cases zero : a.coeff 0 = 0
  · by_cases small : CharacteristicBelow F a.precision
    · exact .of_obstructed (exp_fails small zero) zero small nofun
    · have nonzero := nonzeroBelow_iff.mpr small
      obtain ⟨e, yields, isLog⟩ := exists_exp_yields positive nonzero zero
      refine .of_yields yields zero small ?_
      intro other
      constructor
      · exact fun isOther => isOther.unique_exponential nonzero isLog
      · rintro rfl
        exact isLog
  · exact .of_refused (exp_fails_of_constant positive zero) zero

/-- The differential equation, term by term. -/
theorem IsLogarithm.mul_coeff_eq_sum {e : Series F} (isLog : IsLogarithm e a) {k : Nat}
    (known : k < a.precision)
    : (k : F) * e.coeff k
      = ∑ i ∈ Finset.Icc 1 k, (i : F) * a.coeff i * e.coeff (k - i) := by
  cases k with
  | zero => simp
  | succ k =>
      have below : k < e.precision - 1 := by
        have := isLog.precision
        omega
      have vanishes := X_pow_dvd_iff.mp isLog.slope k below
      rw [Polynomial.coeff_sub, sub_eq_zero, mul_comm, Polynomial.coeff_mul,
        Finset.Nat.sum_antidiagonal_eq_sum_range_succ
          (fun i j => (Polynomial.derivative a.toPolynomial).coeff i * e.toPolynomial.coeff j),
        Polynomial.coeff_derivative, coeff_toPolynomial] at vanishes
      rw [← Finset.Ico_add_one_right_eq_Icc, Finset.sum_Ico_eq_sum_range, Nat.add_sub_cancel,
        Nat.cast_succ, mul_comm, ← vanishes]
      refine Finset.sum_congr rfl ?_
      intro i _
      rw [Polynomial.coeff_derivative, coeff_toPolynomial, coeff_toPolynomial, Nat.add_comm 1 i,
        Nat.add_sub_add_right, Nat.cast_succ, mul_comm (a.coeff (i + 1))]

-----------------------------------------------------------------------------------------
-- Main statements
-----------------------------------------------------------------------------------------

/-- Over every field of the library and at every precision, the logarithm is refused for its
constant term exactly where that is not one, and else with the characteristic exactly where that is
below the precision. All other series have one logarithm, which is found. Where no term is known,
the logarithm has no terms.
-/
theorem log_exact {F : Type} [KernelField F] [LibraryField F] (a : Series F)
    : (a.precision = 0 → a.log.Yields ⟨[]⟩)
      ∧ (0 < a.precision
          → Decided a.precision (a.coeff 0 = 1) .logConstantTerm (IsLogarithm a) a.log) := by
  refine ⟨?_, log_decided⟩
  intro none
  rw [log_eq_nil none]
  exact Logged.yields_pure _

theorem log_exact_seventeen
    : (mk ([] : List (Residue Modulus.seventeen))).log.Yields ⟨[]⟩
      ∧ (mk ([2, 1] : List (Residue Modulus.seventeen))).log.Fails (.refused .logConstantTerm)
      ∧ (constant (1 : Residue Modulus.seventeen) 18).log.Fails (.refused (.zeroDivisor 17))
      ∧ (mk ([1, 1, 9] : List (Residue Modulus.seventeen))).log.Yields ⟨[0, 1, 0]⟩
      ∧ ∀ l, IsLogarithm (mk ([1, 1, 9] : List (Residue Modulus.seventeen))) l
          ↔ l = ⟨[0, 1, 0]⟩ := by
  have found : (mk ([1, 1, 9] : List (Residue Modulus.seventeen))).log.Yields ⟨[0, 1, 0]⟩ := by
    rw [Logged.Yields]
    decide +kernel
  have unknown := (log_exact (mk ([] : List (Residue Modulus.seventeen)))).1 rfl
  have other := (log_exact (mk ([2, 1] : List (Residue Modulus.seventeen)))).2 (by decide)
  have obstructed := (log_exact (constant (1 : Residue Modulus.seventeen) 18)).2 (by decide)
  have solved := (log_exact (mk ([1, 1, 9] : List (Residue Modulus.seventeen)))).2 (by decide)
  refine ⟨unknown, other.refused_iff.mpr (by decide), ?_, found, ?_⟩
  · apply (obstructed.obstructed_iff (by decide) 17).mpr
    exact ⟨(Residue.ringChar_eq (m := Modulus.seventeen)).symm,
      Residue.characteristicBelow_iff.mpr (by decide)⟩
  · obtain ⟨l, yields, only⟩ := solved.exists_yields (by decide)
      (mt Residue.characteristicBelow_iff.mp (by decide))
    obtain rfl := yields.unique found
    exact only

/-- Over every field of the library and at every positive precision, the exponential is refused for
its constant term exactly where that is not zero, and else with the characteristic exactly where
that is below the precision. All other series have one exponential, which is found. Each coefficient
of it is determined by those before.
-/
theorem exp_exact {F : Type} [KernelField F] [LibraryField F] (a : Series F)
    (positive : 0 < a.precision)
    : Decided a.precision (a.coeff 0 = 0) .expConstantTerm (IsLogarithm · a) a.exp
      ∧ ∀ e, a.exp.Yields e → ∀ k < a.precision,
          (k : F) * e.coeff k
            = ∑ i ∈ Finset.Icc 1 k, (i : F) * a.coeff i * e.coeff (k - i) := by
  have decided := exp_decided positive
  refine ⟨decided, ?_⟩
  intro e yields k known
  have zero : a.coeff 0 = 0 := by
    by_contra other
    exact yields.not_fails _ (decided.refused_iff.mpr other)
  have large : ¬ CharacteristicBelow F a.precision := by
    intro small
    exact yields.not_fails _ ((decided.obstructed_iff zero _).mpr ⟨rfl, small⟩)
  obtain ⟨s, found, only⟩ := decided.exists_yields zero large
  obtain rfl := yields.unique found
  exact ((only e).mpr rfl).mul_coeff_eq_sum known

theorem exp_exact_seventeen
    : (mk ([1, 1] : List (Residue Modulus.seventeen))).exp.Fails (.refused .expConstantTerm)
      ∧ (zero 18 : Series (Residue Modulus.seventeen)).exp.Fails (.refused (.zeroDivisor 17))
      ∧ (mk ([0, 1, 0] : List (Residue Modulus.seventeen))).exp.Yields ⟨[1, 1, 9]⟩
      ∧ (∀ e, IsLogarithm e (mk ([0, 1, 0] : List (Residue Modulus.seventeen)))
          ↔ e = ⟨[1, 1, 9]⟩)
      ∧ (2 : Residue Modulus.seventeen) * 9 = 1 * 1 * 1 + 2 * 0 * 1 := by
  have found : (mk ([0, 1, 0] : List (Residue Modulus.seventeen))).exp.Yields ⟨[1, 1, 9]⟩ := by
    rw [Logged.Yields]
    decide +kernel
  obtain ⟨other, _⟩ := exp_exact (mk ([1, 1] : List (Residue Modulus.seventeen))) (by decide)
  obtain ⟨obstructed, _⟩ :=
    exp_exact (zero 18 : Series (Residue Modulus.seventeen)) (by decide)
  obtain ⟨solved, terms⟩ :=
    exp_exact (mk ([0, 1, 0] : List (Residue Modulus.seventeen))) (by decide)
  refine ⟨other.refused_iff.mpr (by decide), ?_, found, ?_, ?_⟩
  · apply (obstructed.obstructed_iff (by decide) 17).mpr
    exact ⟨(Residue.ringChar_eq (m := Modulus.seventeen)).symm,
      Residue.characteristicBelow_iff.mpr (by decide)⟩
  · obtain ⟨e, yields, only⟩ := solved.exists_yields (by decide)
      (mt Residue.characteristicBelow_iff.mp (by decide))
    obtain rfl := yields.unique found
    exact only
  · have second := terms _ found 2 (by decide)
    simpa [Finset.sum_Icc_succ_top, coeff, CoeffList.coeff] using second

end FastAlgebra.Series
