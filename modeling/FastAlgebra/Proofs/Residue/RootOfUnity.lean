import Mathlib
import FastAlgebra.Residue.RootOfUnity
import FastAlgebra.Proofs.Dyadic
import FastAlgebra.Proofs.Residue.Inverse

/-! Roots of unity modulo a prime. The least number that fails Euler's criterion exists for every
odd prime, and taking the odd part of the group order out of it leaves an element whose last
power before one is minus one. All roots of dyadic order are powers of that element.
-/

namespace FastAlgebra

namespace Modulus

variable (m : Modulus)

/-- The group order is a power of two, with the adicity as exponent, times an odd number. -/
theorem exists_order_eq (large : 1 < m.toNat)
    : ∃ half, m.toNat - 1 = 2 ^ m.twoAdicity * (2 * half + 1) :=
  exists_odd_eq_factorsOfTwo (by omega)

/-- The adicity of a modulus is below the width of a signed word. -/
theorem twoAdicity_lt (large : 1 < m.toNat) : m.twoAdicity < 63 := by
  obtain ⟨half, order⟩ := m.exists_order_eq large
  have bound : m.toNat < 0x8000000000000000 := m.lt
  have power : 2 ^ m.twoAdicity ≤ m.toNat - 1 := by
    rw [order]
    exact Nat.le_mul_of_pos_right _ (by omega)
  have below : 2 ^ m.twoAdicity < 2 ^ 63 := by omega
  exact (Nat.pow_lt_pow_iff_right Nat.one_lt_two).mp below

/-- Modulo an odd prime some number is not a square, and Euler's criterion shows it. -/
theorem exists_leastNonSquare?_eq [prime : Fact m.toNat.Prime] (odd : 2 < m.toNat)
    : ∃ q, m.leastNonSquare? = some q ∧ (q : ZMod m.toNat) ^ ((m.toNat - 1) / 2) = -1 := by
  have minusOne : ((m.toNat - 1 : Nat) : ZMod m.toNat) = -1 := by
    rw [Nat.cast_sub m.toNat_pos, ZMod.natCast_self, Nat.cast_one, zero_sub]
  have halved : (m.toNat - 1) / 2 = m.toNat / 2 := by
    have := prime.out.eq_two_or_odd
    omega
  obtain ⟨w, nonSquare⟩ := FiniteField.exists_nonsquare (F := ZMod m.toNat)
    (by rw [ZMod.ringChar_zmod_n]; omega)
  have nonzero : w ≠ 0 := fun zero => nonSquare (zero ▸ IsSquare.zero)
  have atLeastTwo : 2 ≤ w.val := by
    by_contra small
    have binary : w.val = 0 ∨ w.val = 1 := by omega
    rcases binary with zero | one
    · exact nonzero ((ZMod.val_eq_zero w).mp zero)
    · have isOne : w = 1 := by
        rw [← ZMod.natCast_zmod_val w, one, Nat.cast_one]
      exact nonSquare (isOne ▸ IsSquare.one)
  have criterion : w ^ (m.toNat / 2) = -1 :=
    (ZMod.pow_div_two_eq_neg_one_or_one m.toNat nonzero).resolve_left
      (fun square => nonSquare ((ZMod.euler_criterion m.toNat nonzero).mpr square))
  have passes : (m.powMod w.val ((m.toNat - 1) / 2) == m.toNat - 1) = true := by
    rw [beq_iff_eq]
    have congruent : ((m.powMod w.val ((m.toNat - 1) / 2) : Nat) : ZMod m.toNat)
        = (m.toNat - 1 : Nat) := by
      rw [cast_powMod, ZMod.natCast_zmod_val, halved, criterion, minusOne]
    have same := (ZMod.natCast_eq_natCast_iff' _ _ _).mp congruent
    rwa [Nat.mod_eq_of_lt (m.powMod_lt _ _), Nat.mod_eq_of_lt (by omega)] at same
  obtain ⟨q, found, _, _, test⟩
      : ∃ q, m.leastNonSquare? = some q ∧ 2 ≤ q ∧ q < m.toNat
          ∧ (m.powMod q ((m.toNat - 1) / 2) == m.toNat - 1) = true :=
    exists_leastBelow?_eq ⟨w.val, atLeastTwo, ZMod.val_lt w, passes⟩
  refine ⟨q, found, ?_⟩
  rw [← cast_powMod, beq_iff_eq.mp test, minusOne]

end Modulus

namespace Residue

variable {m : Modulus}

/-- The power of the basic root to half its order is minus one. -/
theorem dyadicRoot_pow_half [prime : Fact m.toNat.Prime] (odd : 2 < m.toNat)
    : 0 < m.twoAdicity ∧ dyadicRoot m ^ 2 ^ (m.twoAdicity - 1) = -1 := by
  obtain ⟨half, order⟩ := m.exists_order_eq (by omega)
  have positive : 0 < m.twoAdicity := by
    by_contra none
    have zero : m.twoAdicity = 0 := by omega
    rw [zero, pow_zero, one_mul] at order
    have := prime.out.eq_two_or_odd
    omega
  refine ⟨positive, ?_⟩
  obtain ⟨q, found, criterion⟩ := m.exists_leastNonSquare?_eq odd
  have oddPart : (m.toNat - 1) >>> m.twoAdicity = 2 * half + 1 := by
    rw [Nat.shiftRight_eq_div_pow, order, Nat.mul_div_cancel_left _ (by positivity)]
  have exponent : (2 * half + 1) * 2 ^ (m.twoAdicity - 1) = (m.toNat - 1) / 2 := by
    have doubled : 2 ^ m.twoAdicity = 2 * 2 ^ (m.twoAdicity - 1) := by
      rw [← pow_succ', Nat.sub_add_cancel positive]
    rw [order, doubled, mul_assoc, Nat.mul_div_cancel_left _ (by omega), mul_comm]
  have root : (dyadicRoot m).toZMod = (q : ZMod m.toNat) ^ (2 * half + 1) := by
    rw [dyadicRoot, toZMod_ofNat, Modulus.dyadicRoot, if_neg (by omega), found, ← oddPart]
    exact m.cast_powMod _ _
  apply toZMod_injective
  rw [← pow_eq, toZMod_pow, root, ← pow_mul, exponent, criterion, toZMod_neg, toZMod_one]

/-- The basic root has the full dyadic order as an exponent. -/
theorem dyadicRoot_pow_order [prime : Fact m.toNat.Prime]
    : dyadicRoot m ^ 2 ^ m.twoAdicity = 1 := by
  rcases Nat.lt_or_ge 2 m.toNat with odd | two
  · obtain ⟨positive, minusOne⟩ := dyadicRoot_pow_half odd
    rw [← Nat.sub_add_cancel positive, pow_succ, pow_mul, minusOne, neg_one_sq]
  · have one : dyadicRoot m = 1 := by
      apply toZMod_injective
      rw [dyadicRoot, toZMod_ofNat, Modulus.dyadicRoot, if_pos two, ZMod.natCast_mod,
        Nat.cast_one, toZMod_one]
    rw [one, one_pow]

/-- The root of the order `2 ^ s`. -/
def root (m : Modulus) (s : Nat) : Residue m :=
  dyadicRoot m ^ 2 ^ (m.twoAdicity - s)

/-- A root is found exactly for the powers of two up to the adicity. -/
theorem rootOfUnity?_two_pow {s : Nat} (supported : s ≤ m.twoAdicity)
    : rootOfUnity? (2 ^ s) = some (root m s) := by
  rw [rootOfUnity?, Nat.log2_two_pow, if_pos ⟨isDyadic_two_pow s, supported⟩, powerOfTwo_eq,
    pow_eq, root]

theorem root_zero [Fact m.toNat.Prime] : root m 0 = 1 := by
  rw [root, Nat.sub_zero, dyadicRoot_pow_order]

/-- The root of order two is minus one. -/
theorem root_one [Fact m.toNat.Prime] (odd : 2 < m.toNat) : root m 1 = -1 :=
  (dyadicRoot_pow_half odd).2

/-- The square of a root is the root of half the order. -/
theorem root_succ_sq {s : Nat} (supported : s < m.twoAdicity) : root m (s + 1) ^ 2 = root m s := by
  have exponent : m.twoAdicity - (s + 1) + 1 = m.twoAdicity - s := by omega
  rw [root, root, ← pow_mul, ← pow_succ, exponent]

/-- Roots are found for the powers of two that divide the group order, and for nothing else. -/
theorem rootOfUnity?_eq_some_iff (large : 1 < m.toNat) (order : Nat) (z : Residue m)
    : rootOfUnity? order = some z
      ↔ ∃ s, order = 2 ^ s ∧ 2 ^ s ∣ m.toNat - 1 ∧ z = root m s := by
  have adicity (s : Nat) : 2 ^ s ∣ m.toNat - 1 ↔ s ≤ m.twoAdicity :=
    two_pow_dvd_iff (by omega) s
  constructor
  · intro found
    have result := found
    rw [rootOfUnity?] at found
    split at found
    · rename_i supported
      obtain ⟨s, rfl⟩ := (isDyadic_iff order).mp supported.1
      rw [Nat.log2_two_pow] at supported
      rw [rootOfUnity?_two_pow supported.2] at result
      exact ⟨s, rfl, (adicity s).mpr supported.2, (Option.some.inj result).symm⟩
    · exact nomatch found
  · rintro ⟨s, rfl, divides, rfl⟩
    exact rootOfUnity?_two_pow ((adicity s).mp divides)

/-- The order of a root is the power of two that it was asked for. -/
theorem orderOf_root [prime : Fact m.toNat.Prime] {s : Nat} (supported : s ≤ m.twoAdicity)
    : orderOf (root m s) = 2 ^ s := by
  have one : root m s ^ 2 ^ s = 1 := by
    rw [root, ← pow_mul, ← pow_add, Nat.sub_add_cancel supported, dyadicRoot_pow_order]
  cases s with
  | zero => rw [root_zero, orderOf_one, pow_zero]
  | succ s =>
      apply orderOf_eq_prime_pow _ one
      have odd : 2 < m.toNat := by
        by_contra small
        have two : m.toNat = 2 := by
          have := prime.out.two_le
          omega
        obtain ⟨half, order⟩ := m.exists_order_eq prime.out.one_lt
        rw [two] at order
        have even : 2 ∣ 2 ^ m.twoAdicity := dvd_pow_self 2 (by omega)
        have unit : 2 ∣ 2 - 1 := order ▸ dvd_mul_of_dvd_left even _
        omega
      have exponent : m.twoAdicity - (s + 1) + s = m.twoAdicity - 1 := by omega
      have minusOne : root m (s + 1) ^ 2 ^ s = -1 := by
        rw [root, ← pow_mul, ← pow_add, exponent]
        exact (dyadicRoot_pow_half odd).2
      rw [minusOne]
      intro same
      have : Fact (2 < m.toNat) := ⟨odd⟩
      have classes := congrArg toZMod same
      rw [toZMod_neg, toZMod_one] at classes
      exact ZMod.neg_one_ne_one classes

end Residue

theorem Modulus.twoAdicity_seventeen : Modulus.seventeen.twoAdicity = 4 := by
  have order : Modulus.seventeen.twoAdicity = factorsOfTwo 16 := rfl
  rw [order]
  simp [factorsOfTwo]

end FastAlgebra
