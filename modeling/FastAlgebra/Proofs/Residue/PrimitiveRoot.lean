import Mathlib
import FastAlgebra.Proofs.Dyadic
import FastAlgebra.Proofs.Residue.Inverse
import FastAlgebra.Proofs.Residue.TrialDivision

/-! Generators of the units modulo a prime. An element has the order of the whole group exactly
where none of its powers to the group order over a prime factor is one. There is such an element, so
the search ends with the least one.
-/

namespace FastAlgebra

namespace Modulus

/-- No power of the number to the group order over a prime factor is one. -/
def hasFullOrder (m : Modulus) (n : Nat) : Bool :=
  (distinctPrimeFactors (m.toNat - 1)).all fun factor => m.powMod n ((m.toNat - 1) / factor) != 1

theorem primitiveRoot_eq (m : Modulus)
    : m.primitiveRoot
      = if m.toNat = 2 then 1 else (leastBelow? m.hasFullOrder 2 m.toNat).getD 1 :=
  rfl

end Modulus

namespace Residue

variable {m : Modulus}

/-- The reduced power of a number is one exactly where the power of its residue is. -/
theorem powMod_eq_one_iff (large : 1 < m.toNat) (n exponent : Nat)
    : m.powMod n exponent = 1 ↔ (ofNat n : Residue m) ^ exponent = 1 := by
  have class_eq : ((m.powMod n exponent : Nat) : ZMod m.toNat)
      = ((ofNat n : Residue m) ^ exponent).toZMod := by
    rw [m.cast_powMod, ← pow_eq, toZMod_pow, toZMod_ofNat]
  have one_eq : ((1 : Nat) : ZMod m.toNat) = (1 : Residue m).toZMod := by
    rw [toZMod_one, Nat.cast_one]
  rw [← toZMod_injective.eq_iff, ← class_eq, ← one_eq, ZMod.natCast_eq_natCast_iff',
    Nat.mod_eq_of_lt (m.powMod_lt n exponent), Nat.mod_eq_of_lt large]

section Prime

variable [prime : Fact m.toNat.Prime]

/-- The group order is an exponent of the units. -/
theorem pow_order_eq_one {x : Residue m} (nonzero : x ≠ 0) : x ^ (m.toNat - 1) = 1 := by
  have unit : x.toZMod ≠ 0 := fun zero => nonzero (toZMod_injective (zero.trans toZMod_zero.symm))
  apply toZMod_injective
  rw [← pow_eq, toZMod_pow, toZMod_one]
  exact ZMod.pow_card_sub_one_eq_one unit

/-- The units of the integers modulo a prime are cyclic, and so are those of the residues. -/
theorem exists_orderOf_eq (m : Modulus) [Fact m.toNat.Prime]
    : ∃ x : Residue m, x ≠ 0 ∧ orderOf x = m.toNat - 1 := by
  obtain ⟨unit, generates⟩ := IsCyclic.exists_generator (α := (ZMod m.toNat)ˣ)
  have order : orderOf (unit : ZMod m.toNat) = m.toNat - 1 := by
    rw [orderOf_units, orderOf_eq_card_of_forall_mem_zpowers generates, Nat.card_eq_fintype_card,
      ZMod.card_units]
  have embeds := (equivZMod (m := m)).symm.injective
  refine ⟨(equivZMod (m := m)).symm.toRingHom unit, ?_, ?_⟩
  · exact (map_ne_zero_iff _ embeds).mpr unit.ne_zero
  · rw [← order]
    exact orderOf_injective (equivZMod (m := m)).symm.toRingHom.toMonoidHom embeds unit

/-- The test of a candidate passes exactly the elements of full order. -/
theorem hasFullOrder_iff {n : Nat} (nonzero : (ofNat n : Residue m) ≠ 0)
    : m.hasFullOrder n = true ↔ orderOf (ofNat n : Residue m) = m.toNat - 1 := by
  have large := prime.out.one_lt
  have positive : 0 < m.toNat - 1 := by omega
  have test (factor : Nat) : (m.powMod n ((m.toNat - 1) / factor) != 1) = true
      ↔ (ofNat n : Residue m) ^ ((m.toNat - 1) / factor) ≠ 1 := by
    rw [bne_iff_ne, Ne, powMod_eq_one_iff large]
  simp only [Modulus.hasFullOrder, List.all_eq_true, mem_distinctPrimeFactors_iff positive, test]
  constructor
  · intro proper
    exact orderOf_eq_of_pow_and_pow_div_prime positive (pow_order_eq_one nonzero)
      fun factor isPrime divides => proper factor ⟨isPrime, divides⟩
  · rintro full factor ⟨isPrime, divides⟩ one
    have smaller : (m.toNat - 1) / factor < m.toNat - 1 := Nat.div_lt_self positive isPrime.one_lt
    have reached := orderOf_le_of_pow_eq_one
      (Nat.div_pos (Nat.le_of_dvd positive divides) isPrime.pos) one
    omega

/-- Modulo an odd prime the order of one is smaller, so nothing is lost by starting at two. -/
theorem candidate_iff (odd : 2 < m.toNat) (g : Nat)
    : (1 ≤ g ∧ g < m.toNat ∧ orderOf (ofNat g : Residue m) = m.toNat - 1)
      ↔ 2 ≤ g ∧ g < m.toNat ∧ m.hasFullOrder g = true := by
  constructor
  · rintro ⟨positive, below, full⟩
    have other : 1 ≠ g := by
      rintro rfl
      rw [ofNat_one, orderOf_one] at full
      omega
    exact ⟨by omega, below, (hasFullOrder_iff (ofNat_ne_zero positive below)).mpr full⟩
  · rintro ⟨reached, below, passes⟩
    have positive : 1 ≤ g := by omega
    exact ⟨positive, below, (hasFullOrder_iff (ofNat_ne_zero positive below)).mp passes⟩

/-- The search finds the least number whose residue generates the units. -/
theorem isLeast_primitiveRoot (m : Modulus) [prime : Fact m.toNat.Prime]
    : IsLeast {g | 1 ≤ g ∧ g < m.toNat ∧ orderOf (ofNat g : Residue m) = m.toNat - 1}
        m.primitiveRoot := by
  have large := prime.out.two_le
  rw [m.primitiveRoot_eq]
  split
  · rename_i two
    refine ⟨⟨Nat.le_refl 1, large, ?_⟩, fun _ other => other.1⟩
    rw [ofNat_one, orderOf_one, two]
  · rename_i other
    have odd : 2 < m.toNat := by omega
    obtain ⟨x, unit, full⟩ := exists_orderOf_eq m
    have positive : 1 ≤ x.toNat := Nat.one_le_iff_ne_zero.mpr ((toNat_eq_zero_iff x).not.mpr unit)
    have generator := (candidate_iff odd x.toNat).mp
      ⟨positive, x.toNat_lt, by rw [ofNat_toNat, full]⟩
    obtain ⟨g, found, _⟩ : ∃ g, leastBelow? m.hasFullOrder 2 m.toNat = some g ∧ _ :=
      exists_leastBelow?_eq ⟨x.toNat, generator⟩
    rw [found, Option.getD_some]
    simp only [candidate_iff odd]
    exact leastBelow?_eq_some_iff.mp found

/-- Every unit is a power of an element of full order. -/
theorem exists_eq_pow {x y : Residue m} (full : orderOf x = m.toNat - 1) (nonzero : y ≠ 0)
    : ∃ exponent, y = x ^ exponent := by
  have positive : m.toNat - 1 ≠ 0 := by
    have := prime.out.one_lt
    omega
  have : NeZero (m.toNat - 1) := ⟨positive⟩
  have primitive := IsPrimitiveRoot.orderOf x
  rw [full] at primitive
  obtain ⟨exponent, _, same⟩ := primitive.eq_pow_of_pow_eq_one (pow_order_eq_one nonzero)
  exact ⟨exponent, same.symm⟩

end Prime

end Residue

end FastAlgebra
