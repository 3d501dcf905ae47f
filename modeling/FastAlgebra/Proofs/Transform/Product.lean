import Mathlib
import FastAlgebra.SeriesInverse
import FastAlgebra.Proofs.Transform.Correctness

/-! Products by transforms up to the limit of the modulus and beyond it. As long as the modulus
supports the padded length the product is exact, at the boundary as well, where the product fills
the whole transform. Beyond the limit there is no product: tables never reach past the limit, so
the request for them is refused.
-/

namespace FastAlgebra

open CoeffList

-- The operations of the scalars and those of the ring agree by the laws of `LawfulScalar`.
set_option linter.overlappingInstances false

-----------------------------------------------------------------------------------------
-- Lengths beyond the limit
-----------------------------------------------------------------------------------------

section Refusal

variable {T : Type} [TransformScalar T]

/-- A power of two beyond the tables and beyond the limit is refused. -/
theorem Plan.reserve_fails {plan : Plan T} {n : Nat} (dyadic : IsDyadic n)
    (uncovered : plan.capacity < n) (above : TransformScalar.maxLength T < n)
    : (plan.reserve n).Fails
        (.violated (.lengthAboveMaximum n (TransformScalar.maxLength T))) := by
  rw [reserve, if_neg (by omega), if_neg (not_not.mpr dyadic), if_pos above]
  exact Logged.fails_fail _

/-- A product with a plan is refused together with the padded length. -/
theorem Plan.convolve_fails {plan : Plan T} {a b : List T} (left : a ≠ []) (right : b ≠ [])
    (positive : 0 < plan.capacity)
    (uncovered : plan.capacity < (a.length + b.length - 1).nextPowerOfTwo)
    (above : TransformScalar.maxLength T < (a.length + b.length - 1).nextPowerOfTwo)
    : (plan.convolve a b).Fails
        (.violated (.lengthAboveMaximum (a.length + b.length - 1).nextPowerOfTwo
          (TransformScalar.maxLength T))) := by
  have dyadic := isDyadic_nextPowerOfTwo (a.length + b.length - 1)
  rw [convolve, if_neg (not_isEmpty_or_isEmpty left right)]
  apply Logged.Fails.bind
  rw [prepare, if_neg (fun odd => odd.2 dyadic), if_neg (by omega)]
  exact reserve_fails dyadic uncovered above

/-- The plan that a product makes for itself is refused. -/
theorem Transform.convolve_fails {a b : List T} (left : a ≠ []) (right : b ≠ [])
    (several : 2 < (a.length + b.length - 1).nextPowerOfTwo)
    (above : TransformScalar.maxLength T < (a.length + b.length - 1).nextPowerOfTwo)
    : (Transform.convolve a b).Fails
        (.violated (.lengthAboveMaximum (a.length + b.length - 1).nextPowerOfTwo
          (TransformScalar.maxLength T))) := by
  have dyadic := isDyadic_nextPowerOfTwo (a.length + b.length - 1)
  rw [convolve, if_neg (not_isEmpty_or_isEmpty left right), Nat.max_eq_left several.le]
  apply Logged.Fails.bind
  exact Plan.reserve_fails dyadic several above

end Refusal

-----------------------------------------------------------------------------------------
-- Residues modulo an odd prime
-----------------------------------------------------------------------------------------

/-- The product is the one by the definition as long as the modulus supports the padded length, and
beyond that it is refused with the length and the limit.
-/
structure TransformProduct {m : Modulus} (product : ListProduct (Residue m)) : Prop where
  within
    : ∀ a b,
        (a.length + b.length - 1).nextPowerOfTwo ≤ 2 ^ m.twoAdicity
        → (product a b).Yields (schoolbook a b)
  beyond
    : ∀ a b,
        a ≠ []
        → b ≠ []
        → 2 ^ m.twoAdicity < (a.length + b.length - 1).nextPowerOfTwo
        → (product a b).Fails
            (.violated (.lengthAboveMaximum (a.length + b.length - 1).nextPowerOfTwo
              (2 ^ m.twoAdicity)))

section Prime

variable {m : Modulus} [prime : Fact m.toNat.Prime]

theorem Residue.maxLength_eq : TransformScalar.maxLength (Residue m) = 2 ^ m.twoAdicity :=
  LawfulScalar.laws.maxLength_eq

/-- An odd modulus supports the length two. -/
theorem Residue.two_le_limit (odd : 2 < m.toNat) : 2 ≤ 2 ^ m.twoAdicity := by
  have positive := (Residue.dyadicRoot_pow_half odd).1
  exact Nat.le_self_pow (by omega) 2

/-- The first level, which every plan starts with, is supported by an odd modulus like all others.
-/
theorem Plan.Serves.level_le (odd : 2 < m.toNat) {plan : Plan (Residue m)} {lengths : List Nat}
    {t : Nat} (serves : plan.Serves lengths t)
    : t ≤ m.twoAdicity := by
  have positive := (Residue.dyadicRoot_pow_half odd).1
  have bound : t ≤ max 1 m.twoAdicity := serves.supported
  omega

/-- The tables of a plan never reach past the limit. -/
theorem Plan.capacity_afterAll_le (odd : 2 < m.toNat) (history : List (PlanRequest (Residue m)))
    : 0 < (afterAll history).capacity ∧ (afterAll history).capacity ≤ 2 ^ m.twoAdicity := by
  obtain ⟨t, serves⟩ := exists_serves_afterAll history
  rw [serves.tables.capacity_eq]
  exact ⟨Nat.two_pow_pos t, Nat.pow_le_pow_right (by omega) (serves.level_le odd)⟩

theorem Plan.transformProduct (odd : 2 < m.toNat) (history : List (PlanRequest (Residue m)))
    : TransformProduct (fun a b => Prod.snd <$> (afterAll history).convolve a b) := by
  have limit : TransformScalar.maxLength (Residue m) = 2 ^ m.twoAdicity := Residue.maxLength_eq
  refine ⟨?_, ?_⟩
  · intro a b supported
    rw [← limit] at supported
    obtain ⟨t, tables⟩ := exists_tables_afterAll history
    obtain ⟨next, product⟩ := tables.exists_convolve_yields a b supported
    exact product.map Prod.snd
  · intro a b left right above
    obtain ⟨positive, bound⟩ := capacity_afterAll_le odd history
    rw [← limit] at above bound ⊢
    exact (convolve_fails left right positive (bound.trans_lt above) above).map Prod.snd

theorem Transform.transformProduct (odd : 2 < m.toNat)
    : TransformProduct (Transform.convolve (T := Residue m)) := by
  have limit : TransformScalar.maxLength (Residue m) = 2 ^ m.twoAdicity := Residue.maxLength_eq
  have two := Residue.two_le_limit odd
  refine ⟨?_, ?_⟩
  · intro a b supported
    rw [← limit] at supported
    exact convolve_yields a b supported
  · intro a b left right above
    rw [← limit] at above two ⊢
    exact convolve_fails left right (two.trans_lt above) above

end Prime

/-- The powers of three modulo the default modulus. -/
private theorem three_pow (exponent : Nat)
    : ((3 : Nat) : ZMod Transform.defaultModulus.toNat) ^ exponent
      = Transform.defaultModulus.powMod 3 exponent :=
  (Transform.defaultModulus.cast_powMod 3 exponent).symm

private theorem three_pow_ne_one {exponent : Nat}
    (other : Transform.defaultModulus.powMod 3 exponent % Transform.defaultModulus.toNat
      ≠ 1 % Transform.defaultModulus.toNat)
    : ((3 : Nat) : ZMod Transform.defaultModulus.toNat) ^ exponent ≠ 1 := by
  rw [three_pow, ← Nat.cast_one, Ne, ZMod.natCast_eq_natCast_iff']
  exact other

/-- The default modulus is a prime: three generates the units, as its powers to the group order over
the prime factors two, seven and seventeen show.
-/
instance : Fact Transform.defaultModulus.toNat.Prime := by
  refine ⟨lucas_primality _ ((3 : Nat) : ZMod Transform.defaultModulus.toNat) ?_ ?_⟩
  · have one : Transform.defaultModulus.powMod 3 (Transform.defaultModulus.toNat - 1) = 1 := by
      decide +kernel
    rw [three_pow, one, Nat.cast_one]
  · intro q prime divides
    have order : Transform.defaultModulus.toNat - 1 = 2 ^ 23 * (7 * 17) := rfl
    rw [order, prime.dvd_mul, prime.dvd_mul] at divides
    rcases divides with two | seven | seventeen
    · obtain rfl := (Nat.prime_dvd_prime_iff_eq prime Nat.prime_two).mp (prime.dvd_of_dvd_pow two)
      exact three_pow_ne_one (by decide +kernel)
    · obtain rfl := (Nat.prime_dvd_prime_iff_eq prime (by norm_num)).mp seven
      exact three_pow_ne_one (by decide +kernel)
    · obtain rfl := (Nat.prime_dvd_prime_iff_eq prime (by norm_num)).mp seventeen
      exact three_pow_ne_one (by decide +kernel)

/-- For every odd prime the product by transforms is exact up to the limit of the modulus and
refused beyond it, whatever was asked of the plan before, and with a plan of its own.
-/
theorem transformProduct_exact
    : (∀ m : Modulus, m.toNat.Prime → 2 < m.toNat
          → (∀ history : List (PlanRequest (Residue m)),
              TransformProduct fun a b => Prod.snd <$> (Plan.afterAll history).convolve a b)
            ∧ TransformProduct (Transform.convolve (T := Residue m)))
      ∧ TransformProduct Transform.multiply := by
  refine ⟨?_, Transform.transformProduct (by decide)⟩
  intro m prime odd
  have : Fact m.toNat.Prime := ⟨prime⟩
  exact ⟨Plan.transformProduct odd, Transform.transformProduct odd⟩

theorem transformProduct_exact_seventeen
    : Modulus.seventeen.toNat.Prime
      ∧ (∀ history : List (PlanRequest (Residue Modulus.seventeen)),
          (Prod.snd <$> (Plan.afterAll history).convolve (List.replicate 8 3)
              (List.replicate 9 5)).Yields
            (schoolbook (List.replicate 8 3) (List.replicate 9 5)))
      ∧ (Transform.convolve (List.replicate 9 (3 : Residue Modulus.seventeen))
          (List.replicate 9 5)).Fails (.violated (.lengthAboveMaximum 32 16))
      ∧ (Transform.multiply [1, 2] [3, 4]).Yields [3, 10, 8] := by
  have prime : Modulus.seventeen.toNat.Prime := Fact.out
  have limit : 2 ^ Modulus.seventeen.twoAdicity = 16 := by
    rw [Modulus.twoAdicity_seventeen]
    rfl
  obtain ⟨every, multiplies⟩ := transformProduct_exact
  obtain ⟨kept, own⟩ := every Modulus.seventeen prime (by decide)
  have full : (8 + 9 - 1).nextPowerOfTwo = 16 := by decide +kernel
  have doubled : (9 + 9 - 1).nextPowerOfTwo = 32 := by decide +kernel
  have exact := fun history => (kept history).within (List.replicate 8 3) (List.replicate 9 5)
  have refused := own.beyond (List.replicate 9 3) (List.replicate 9 5) (by simp) (by simp)
  rw [List.length_replicate, List.length_replicate, limit, doubled] at refused
  simp only [List.length_replicate, limit, full] at exact
  refine ⟨prime, fun history => exact history (Nat.le_refl 16), refused (by omega), ?_⟩
  have large : 2 ≤ Transform.defaultModulus.twoAdicity := by
    have adicity : Transform.defaultModulus.twoAdicity = factorsOfTwo 998244352 := rfl
    rw [adicity]
    simp [factorsOfTwo]
  have padded : (2 + 2 - 1).nextPowerOfTwo = 2 ^ 2 := by decide +kernel
  exact multiplies.within [1, 2] [3, 4]
    (padded.trans_le (Nat.pow_le_pow_right (by omega) large))

end FastAlgebra
