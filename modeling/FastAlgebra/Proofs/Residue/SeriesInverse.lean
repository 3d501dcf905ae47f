import Mathlib
import FastAlgebra.SeriesInverse.Requests
import FastAlgebra.Proofs.Residue.Kernels
import FastAlgebra.Proofs.Transform.InPlace

/-! All ways to invert a series over the residues modulo a prime answer alike. Where the constant
term has an inverse, each of them yields the one inverse of the precision; where it has none, each
of them refuses. The tables that the iteration by transforms begins with reach for every transform
on the way.
-/

namespace FastAlgebra

namespace Residue

open CoeffList

variable {m : Modulus} [Fact m.toNat.Prime] {a : List (Residue m)} {n : Nat}

-----------------------------------------------------------------------------------------
-- Requests
-----------------------------------------------------------------------------------------

/-- Requests that the tables cover leave the plan alone. -/
theorem requestInverseStep_eq {plan : Plan (Residue m)} {t s : Nat} (tables : plan.Tables t)
    (covered : s + 2 ≤ t) (a b : List (Residue m))
    : requestInverseStep a (plan, b) (2 ^ s)
      = (plan, ·) <$> transformInverseStep plan a b (2 ^ s) := by
  have quadruple : 4 * 2 ^ s = 2 ^ (s + 2) := by ring
  have request : ∀ c : List (Residue m), c.length = 2 ^ (s + 2)
      → plan.forward c = pure (plan, plan.transform c) :=
    fun c length => Steps.forward_of_covered tables length covered
  have images : ∀ f : Residue m → Residue m → Residue m, ∀ c d : List (Residue m),
      (reflect (List.zipWith f (plan.transform (resize (2 ^ (s + 2)) c))
        (plan.transform (resize (2 ^ (s + 2)) d)))).length = 2 ^ (s + 2) := by
    intro f c d
    rw [length_reflect, List.length_zipWith, Plan.length_transform, Plan.length_transform,
      length_resize, length_resize, Nat.min_self]
  simp only [requestInverseStep, transformInverseStep, quadruple]
  rw [request _ (length_resize _ _), pure_bind, request _ (length_resize _ _), pure_bind,
    request _ (images _ _ _), pure_bind, map_bind]
  rfl

/-- A run of requests that the tables cover leaves the plan alone, by induction on the precisions.
-/
theorem foldlM_requestInverseStep {plan : Plan (Residue m)} {t : Nat} (tables : plan.Tables t)
    {precisions : List Nat} (covered : ∀ k ∈ precisions, ∃ s, k = 2 ^ s ∧ s + 2 ≤ t)
    (a b : List (Residue m))
    : precisions.foldlM (requestInverseStep a) (plan, b)
      = (plan, ·) <$> precisions.foldlM (transformInverseStep plan a) b := by
  induction precisions generalizing b with
  | nil => rfl
  | cons k rest ih =>
      obtain ⟨s, rfl, within⟩ := covered k List.mem_cons_self
      have later : ∀ k ∈ rest, ∃ s, k = 2 ^ s ∧ s + 2 ≤ t :=
        fun k member => covered k (List.mem_cons_of_mem _ member)
      rw [List.foldlM_cons, List.foldlM_cons, requestInverseStep_eq tables within, map_bind,
        bind_map_left]
      exact bind_congr fun c => ih later c

/-- The tables that are reserved at the start cover every transform on the way: each one is four
times as long as the precision that it starts from, and that is less than half of the rounded
precision.
-/
theorem requestInverse_eq (a : List (Residue m)) (n : Nat)
    : requestInverse a n = transformInverse a n := by
  rw [requestInverse, transformInverse]
  split
  · rfl
  · cases constantInverse? a with
    | none => rfl
    | some start =>
        obtain ⟨v, rounded⟩ := exists_nextPowerOfTwo_eq n
        have length : max (2 * n.nextPowerOfTwo) 2 = 2 ^ (v + 1) := by
          rw [rounded, ← pow_succ']
          exact Nat.max_eq_left (Nat.le_self_pow (by omega) 2)
        simp only [length]
        -- A plan that is refused ends both runs, and all others reach.
        refine Logged.bind_congr_of_yields fun plan reserved => ?_
        obtain ⟨t, grown⟩ := Plan.Tables.of_withCapacity reserved
        have reach : v + 1 ≤ t := grown.level_le
        have covered : ∀ k ∈ doublings 1 n, ∃ s, k = 2 ^ s ∧ s + 2 ≤ t := by
          intro k member
          obtain ⟨below, s, rfl⟩ := exists_of_mem_doublings (s := 0) member
          have doubled := two_pow_succ_le_nextPowerOfTwo below
          rw [rounded, Nat.pow_le_pow_iff_right (by omega)] at doubled
          exact ⟨s, rfl, by omega⟩
        rw [foldlM_requestInverseStep grown.tables covered, bind_map_left]

-----------------------------------------------------------------------------------------
-- Agreement
-----------------------------------------------------------------------------------------

/-- What a run to invert a series has to end with: the inverse, if the constant term has one or no
coefficient is asked for, and the refusal otherwise.
-/
structure Inverts (a : List (Residue m)) (n : Nat) (run : Kernel (List (Residue m))) : Prop where
  yields
    : n = 0 ∨ (∃ start, constantInverse? a = some start) → ∃ b, run.Yields b ∧ InverseSeries a b n
  refuses : n ≠ 0 → constantInverse? a = none → run.Fails (.refused .notInvertible)

namespace Inverts

/-- It is enough to look at constant terms with an inverse if the trivial cases are as usual. -/
theorem of_cases {run : Kernel (List (Residue m))} (trivial : n = 0 → run = pure [])
    (refuses : constantInverse? a = none → n ≠ 0 → run = Logged.refuse .notInvertible)
    (yields
      : ∀ start, constantInverse? a = some start → ∃ b, run.Yields b ∧ InverseSeries a b n)
    : Inverts a n run := by
  refine ⟨?_, fun positive missing => refuses missing positive ▸ Logged.fails_fail _⟩
  rintro (none | ⟨start, invertible⟩)
  · exact ⟨[], trivial none ▸ Logged.yields_pure _, none ▸ .zero a⟩
  · exact yields start invertible

/-- Two such runs end alike, because the inverse is unique. -/
theorem outcome_eq {first second : Kernel (List (Residue m))} (left : Inverts a n first)
    (right : Inverts a n second)
    : first.outcome = second.outcome := by
  by_cases invertible : n = 0 ∨ ∃ start, constantInverse? a = some start
  · obtain ⟨b, yields, inverse⟩ := left.yields invertible
    obtain ⟨c, answers, other⟩ := right.yields invertible
    obtain rfl := inverse.unique other
    exact yields.trans answers.symm
  · obtain ⟨positive, missing⟩ := not_or.mp invertible
    have missing : constantInverse? a = none :=
      Option.eq_none_iff_forall_ne_some.mpr fun start found => missing ⟨start, found⟩
    exact (left.refuses positive missing).trans (right.refuses positive missing).symm

theorem of_newton : Inverts a n (newtonInverse KernelField.convolve a n) := by
  refine of_cases (fun none => ?_) (fun missing => newtonInverse_eq_refuse _ missing)
    fun _ invertible =>
      exists_newtonInverse_yields convolve_yields LawfulField.mul_inv? invertible n
  rw [newtonInverse, if_pos none]

theorem of_transform
    (supported : 2 * n.nextPowerOfTwo ≤ TransformScalar.maxLength (Residue m))
    : Inverts a n (transformInverse a n) := by
  refine of_cases (fun none => ?_) (fun missing => transformInverse_eq_refuse missing)
    fun _ invertible => exists_transformInverse_yields invertible supported
  rw [transformInverse, if_pos none]

/-- Each side of the choice inverts the series. -/
theorem of_kernel : Inverts a n (KernelField.seriesInverse a n) := by
  change Inverts a n (Residue.seriesInverse a n)
  unfold Residue.seriesInverse
  split
  · rename_i supported
    exact of_transform supported
  · exact of_newton

end Inverts

/-- For every prime, every list and every precision the inverse of a series never breaks a promise:
it is the one inverse, or it is refused because the constant term has no inverse. The iteration by
products ends alike, and so does the iteration by transforms wherever the modulus supports twice the
rounded precision. There each transform is one that a plan answers on request.
-/
theorem seriesInverse_exact (a : List (Residue m)) (n : Nat)
    : Inverts a n (KernelField.seriesInverse a n)
      ∧ (KernelField.seriesInverse a n).outcome
        = (newtonInverse KernelField.convolve a n).outcome
      ∧ (2 * n.nextPowerOfTwo ≤ 2 ^ m.twoAdicity
          → (transformInverse a n).outcome
            = (newtonInverse KernelField.convolve a n).outcome)
      ∧ requestInverse a n = transformInverse a n := by
  refine ⟨.of_kernel, Inverts.of_kernel.outcome_eq .of_newton, ?_, requestInverse_eq a n⟩
  intro supported
  have limit : TransformScalar.maxLength (Residue m) = 2 ^ m.twoAdicity :=
    LawfulScalar.laws.maxLength_eq
  exact (Inverts.of_transform (limit ▸ supported)).outcome_eq .of_newton

/-- Three coefficients of the geometric series, by transforms of length eight. -/
theorem seriesInverse_exact_seventeen
    : Modulus.seventeen.toNat.Prime
      ∧ 2 * (3).nextPowerOfTwo ≤ 2 ^ Modulus.seventeen.twoAdicity
      ∧ (KernelField.seriesInverse [1, (16 : Residue Modulus.seventeen)] 3).Yields [1, 1, 1]
      ∧ (transformInverse [1, (16 : Residue Modulus.seventeen)] 3).outcome
        = (newtonInverse KernelField.convolve [1, 16] 3).outcome := by
  have supported : 2 * (3).nextPowerOfTwo ≤ 2 ^ Modulus.seventeen.twoAdicity := by
    rw [Modulus.twoAdicity_seventeen]
    decide +kernel
  obtain ⟨_, same, transforms, _⟩ :=
    seriesInverse_exact [1, (16 : Residue Modulus.seventeen)] 3
  have found : (newtonInverse KernelField.convolve
      [1, (16 : Residue Modulus.seventeen)] 3).outcome = .ok [1, 1, 1] := by decide +kernel
  exact ⟨Fact.out, supported, same.trans found, transforms supported⟩

end Residue

end FastAlgebra
