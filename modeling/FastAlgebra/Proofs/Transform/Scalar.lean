import Mathlib
import FastAlgebra.Transform.Scalar
import FastAlgebra.Proofs.Residue.RootOfUnity
import FastAlgebra.Proofs.Transform.Fourier

/-! What the correctness of a transform asks of its scalars: a ring with roots of unity for every
dyadic length up to the longest one, tables of roots that grow level by level, and inverses of the
lengths. Residues modulo a prime satisfy it exactly.
-/

namespace FastAlgebra

/-- The table covers the levels below `t`: behind position `2 ^ s` stand the powers of the root
of the order `2 ^ (s + 1)`.
-/
structure RootTable {R : Type} [CommRing R] (root : Nat → R) (table : Array R) (t : Nat)
    : Prop where
  size : table.size = 2 ^ t
  power : ∀ s < t, ∀ j < 2 ^ s, table[2 ^ s + j]? = some (root (s + 1) ^ j)

/-- The factor takes back a multiplication by the number. -/
def Unscales {R : Type} [CommRing R] (factor : R) (n : Nat) : Prop :=
  factor * n = 1

/-- The operations of the scalars are those of the ring. Up to the level of the longest transform
there are roots of unity, every table of them extends by one level, and the length has an inverse.
-/
structure ScalarLaws (T : Type) [TransformScalar T] [CommRing T] (root : Nat → T) (levels : Nat)
    : Prop where
  zero_eq : (TransformScalar.toZero : Zero T) = MulZeroClass.toZero
  one_eq : (TransformScalar.toOne : One T) = AddMonoidWithOne.toOne
  add_eq : (TransformScalar.toAdd : Add T) = Distrib.toAdd
  sub_eq : (TransformScalar.toSub : Sub T) = Ring.toSub
  mul_eq : (TransformScalar.toMul : Mul T) = Distrib.toMul
  roots : DyadicRoots root levels
  maxLength_eq : TransformScalar.maxLength T = 2 ^ levels
  inverseLength_unscales
    : ∀ s ≤ levels, Unscales (TransformScalar.inverseLength (2 ^ s) : T) (2 ^ s)
  exists_extendRoots_eq
    : ∀ (table : Array T) (s : Nat),
        0 < s
        → s < levels
        → RootTable root table s
        → ∃ next, TransformScalar.extendRoots table (2 ^ s) = .ok next
            ∧ RootTable root next (s + 1)

/-- Scalars with roots of unity that satisfy the laws. -/
class LawfulScalar (T : Type) [TransformScalar T] [CommRing T] where
  root : Nat → T
  levels : Nat
  laws : ScalarLaws T root levels

namespace Residue

variable {m : Modulus}

/-- The roots of all orders up to the adicity. An even prime has the adicity zero. -/
theorem dyadicRoots [prime : Fact m.toNat.Prime] : DyadicRoots (root m) m.twoAdicity where
  first := root_zero
  second positive := by
    apply root_one
    have large := prime.out.two_le
    by_contra small
    have two : m.toNat = 2 := by omega
    rw [Modulus.twoAdicity, two, factorsOfTwo] at positive
    simp at positive
  square _ supported := root_succ_sq supported

/-- Below the middle the table stays as it is; above it the even powers of the new root are the
powers of the old one.
-/
theorem rootTable_doubleRoots [Fact m.toNat.Prime] {table : Array (Residue m)} {s : Nat}
    (positive : 0 < s) (supported : s < m.twoAdicity) (covered : RootTable (root m) table s)
    : RootTable (root m) (doubleRoots table (2 ^ s) (root m (s + 1))) (s + 1) := by
  obtain ⟨r, rfl⟩ : ∃ r, s = r + 1 := ⟨s - 1, by omega⟩
  have square : root m (r + 1 + 1) ^ 2 = root m (r + 1) := root_succ_sq supported
  have double : 2 ^ (r + 1) = 2 * 2 ^ r := pow_succ' 2 r
  refine ⟨by rw [doubleRoots, Array.size_ofFn, pow_succ' 2 (r + 1)], ?_⟩
  intro level below j within
  rcases Nat.lt_or_ge level (r + 1) with old | last
  · have inside : 2 ^ level + j < 2 ^ (r + 1) := by
      have next : 2 ^ (level + 1) ≤ 2 ^ (r + 1) := Nat.pow_le_pow_right (by omega) (by omega)
      rw [pow_succ] at next
      omega
    have entry := covered.power level old j within
    rw [doubleRoots, Array.getElem?_ofFn, dif_pos (by omega), if_pos inside,
      Array.getD_eq_getD_getElem?, entry, Option.getD_some]
  · have same : level = r + 1 := by omega
    subst same
    have halved : (2 ^ (r + 1) + j) / 2 = 2 ^ r + j / 2 := by omega
    have entry := covered.power r (by omega) (j / 2) (by omega)
    rw [doubleRoots, Array.getElem?_ofFn, dif_pos (by omega), if_neg (by simp), halved,
      Array.getD_eq_getD_getElem?, entry, Option.getD_some, ← square, ← pow_mul]
    rcases Nat.mod_two_eq_zero_or_one j with even | odd
    · have whole : 2 * (j / 2) = j := by omega
      rw [if_pos (by simp only; omega), whole]
    · have whole : 2 * (j / 2) + 1 = j := by omega
      rw [if_neg (by simp only; omega), ← pow_succ, whole]

/-- Fermat's theorem: the power to the modulus less two inverts a length. -/
theorem pow_sub_two_unscales [prime : Fact m.toNat.Prime] {s : Nat}
    (supported : s ≤ m.twoAdicity)
    : Unscales ((ofNat (2 ^ s) : Residue m).pow (m.toNat - 2)) (2 ^ s) := by
  have large := prime.out.two_le
  have cast : ((2 ^ s : Nat) : Residue m) = ofNat (2 ^ s) :=
    (LawfulRing.ofNat_eq_cast (2 ^ s)).symm
  have unit : ((2 ^ s : Nat) : ZMod m.toNat) ≠ 0 := by
    rcases Nat.eq_zero_or_pos s with zero | positive
    · rw [zero, pow_zero, Nat.cast_one]
      exact one_ne_zero
    · have halves : 2 ∣ m.toNat - 1 := by
        obtain ⟨half, order⟩ := m.exists_order_eq (by omega)
        rw [order]
        exact dvd_mul_of_dvd_left (dvd_pow_self 2 (by omega)) _
      rw [Nat.cast_pow, Ne, pow_eq_zero_iff (by omega), ZMod.natCast_eq_zero_iff]
      intro divides
      have := Nat.le_of_dvd (by omega) divides
      omega
  have exponent : m.toNat - 2 + 1 = m.toNat - 1 := by omega
  apply toZMod_injective
  rw [cast, toZMod_mul, toZMod_pow, toZMod_ofNat, toZMod_one, ← pow_succ, exponent]
  exact ZMod.pow_card_sub_one_eq_one unit

theorem scalarLaws [prime : Fact m.toNat.Prime]
    : ScalarLaws (Residue m) (root m) m.twoAdicity where
  zero_eq := rfl
  one_eq := rfl
  add_eq := rfl
  sub_eq := rfl
  mul_eq := rfl
  roots := dyadicRoots
  maxLength_eq := by
    have bound := m.twoAdicity_lt prime.out.one_lt
    change powerOfTwo (min m.twoAdicity 63) = _
    rw [Nat.min_eq_left bound.le, powerOfTwo_eq]
  inverseLength_unscales _ supported := pow_sub_two_unscales supported
  exists_extendRoots_eq table s positive supported covered := by
    have found : rootOfUnity? (2 * 2 ^ s) = some (root m (s + 1)) := by
      rw [← pow_succ', rootOfUnity?_two_pow (by omega)]
    refine ⟨_, ?_, rootTable_doubleRoots positive supported covered⟩
    simp only [TransformScalar.extendRoots, found]

instance [Fact m.toNat.Prime] : LawfulScalar (Residue m) where
  root := root m
  levels := m.twoAdicity
  laws := scalarLaws

end Residue

end FastAlgebra
