import Mathlib
import FastAlgebra.Residue.Inverse
import FastAlgebra.Proofs.Residue.Ring

/-! Inverses of residues. Every row of Euclid's algorithm holds a remainder that is congruent to
its factor times the element, and the greatest common divisor of the two remainders never
changes. At the end it is the last remainder, so an element without a common factor with the
modulus gets its inverse, and modulo a prime the residues are a field.
-/

namespace FastAlgebra

namespace EuclidRows

/-- What every pair of rows on a modulus and an element satisfies. -/
structure Invariant (modulus element : Nat) (rows : EuclidRows) : Prop where
  gcd_eq : Nat.gcd rows.remainder rows.next = Nat.gcd modulus element
  remainder_eq : (rows.remainder : ZMod modulus) = rows.factor * element
  next_eq : (rows.next : ZMod modulus) = rows.nextFactor * element

variable {modulus element : Nat}

theorem Invariant.start (modulus element : Nat)
    : (start modulus element).Invariant modulus element where
  gcd_eq := rfl
  remainder_eq := by simp [EuclidRows.start]
  next_eq := by simp [EuclidRows.start]

/-- Moving down by one row keeps the common divisor and both congruences. -/
theorem Invariant.step {rows : EuclidRows} (h : rows.Invariant modulus element)
    : rows.step.Invariant modulus element where
  gcd_eq := by
    rw [EuclidRows.step, Nat.gcd_comm, ← Nat.gcd_rec, Nat.gcd_comm]
    exact h.gcd_eq
  remainder_eq := h.next_eq
  next_eq := by
    have division : ((rows.remainder % rows.next : Nat) : ZMod modulus)
        = rows.remainder - rows.next * (rows.remainder / rows.next : Nat) := by
      rw [eq_sub_iff_add_eq, ← Nat.cast_mul, ← Nat.cast_add, Nat.mod_add_div]
    simp only [EuclidRows.step]
    rw [division, h.remainder_eq, h.next_eq, Int.cast_sub, Int.cast_mul, Int.cast_natCast]
    ring

/-- The rows at the end satisfy the invariant, and their second remainder is zero, by induction
on the run.
-/
theorem Invariant.finish {rows : EuclidRows} (h : rows.Invariant modulus element)
    : rows.finish.Invariant modulus element ∧ rows.finish.next = 0 := by
  fun_induction EuclidRows.finish rows with
  | case1 rows done => exact ⟨h, done⟩
  | case2 rows _ ih => exact ih h.step

/-- The algorithm ends with the greatest common divisor. -/
theorem remainder_finish_start (modulus element : Nat)
    : (EuclidRows.start modulus element).finish.remainder = Nat.gcd modulus element := by
  obtain ⟨invariant, done⟩ := (Invariant.start modulus element).finish
  rw [← invariant.gcd_eq, done, Nat.gcd_zero_right]

-----------------------------------------------------------------------------------------
-- The size of the factors
-----------------------------------------------------------------------------------------

/-- A factor that is reduced by a multiple of one of the other sign grows by the size of it. -/
theorem abs_sub_mul_of_opposite {x y q : Int} (opposite : x * y ≤ 0) (positive : 0 ≤ q)
    : |x - q * y| = |x| + q * |y| := by
  rcases mul_nonpos_iff.mp opposite with ⟨high, low⟩ | ⟨low, high⟩
  · have multiple : q * y ≤ 0 := mul_nonpos_of_nonneg_of_nonpos positive low
    rw [abs_of_nonneg (by omega), abs_of_nonneg high, abs_of_nonpos low]
    ring
  · have multiple : 0 ≤ q * y := mul_nonneg positive high
    rw [abs_of_nonpos (by omega), abs_of_nonpos low, abs_of_nonneg high]
    ring

/-- The signs of the factors alternate, so their cross products with the remainders add up to the
modulus in every pair of rows, and no factor is larger than that.
-/
structure Balanced (modulus : Nat) (rows : EuclidRows) : Prop where
  ordered : rows.next < rows.remainder
  within : rows.remainder ≤ modulus
  opposite : rows.factor * rows.nextFactor ≤ 0
  balance : |rows.factor| * rows.next + |rows.nextFactor| * rows.remainder = modulus
  bounded : |rows.factor| ≤ modulus

namespace Balanced

theorem start (below : element < modulus) : Balanced modulus (start modulus element) where
  ordered := below
  within := Nat.le_refl modulus
  opposite := by simp [EuclidRows.start]
  balance := by simp [EuclidRows.start]
  bounded := by simp [EuclidRows.start]

variable {rows : EuclidRows}

theorem next_bounded (balanced : Balanced modulus rows) : |rows.nextFactor| ≤ modulus := by
  have positive : (1 : Int) ≤ rows.remainder := by
    have := balanced.ordered
    omega
  have rest : 0 ≤ |rows.factor| * rows.next := by positivity
  calc |rows.nextFactor| ≤ |rows.nextFactor| * rows.remainder :=
        le_mul_of_one_le_right (abs_nonneg _) positive
    _ ≤ modulus := by
        have := balanced.balance
        omega

/-- Moving down by one row keeps the balance. -/
theorem step (balanced : Balanced modulus rows) (more : rows.next ≠ 0)
    : Balanced modulus rows.step where
  ordered := Nat.mod_lt _ (by omega)
  within := (balanced.ordered.trans_le balanced.within).le
  opposite := by
    have square : 0 ≤ (rows.remainder / rows.next : Nat) * (rows.nextFactor * rows.nextFactor) :=
      mul_nonneg (Nat.cast_nonneg _) (mul_self_nonneg _)
    have expanded : rows.nextFactor
          * (rows.factor - (rows.remainder / rows.next : Nat) * rows.nextFactor)
        = rows.factor * rows.nextFactor
          - (rows.remainder / rows.next : Nat) * (rows.nextFactor * rows.nextFactor) := by ring
    simp only [EuclidRows.step]
    rw [expanded]
    have := balanced.opposite
    omega
  balance := by
    have division : (rows.remainder : Int)
        = rows.next * (rows.remainder / rows.next : Nat) + (rows.remainder % rows.next : Nat) := by
      rw [← Nat.cast_mul, ← Nat.cast_add, Nat.div_add_mod]
    simp only [EuclidRows.step]
    rw [abs_sub_mul_of_opposite balanced.opposite (Nat.cast_nonneg _), ← balanced.balance, division]
    ring
  bounded := balanced.next_bounded

/-- The multiple by which a factor is reduced is no larger than the modulus either. -/
theorem multiple_bounded (balanced : Balanced modulus rows) (more : rows.next ≠ 0)
    : |((rows.remainder / rows.next : Nat) : Int) * rows.nextFactor| ≤ modulus := by
  have reduced := (balanced.step more).next_bounded
  simp only [EuclidRows.step] at reduced
  rw [abs_sub_mul_of_opposite balanced.opposite (Nat.cast_nonneg _)] at reduced
  rw [abs_mul, Nat.abs_cast]
  have factor := abs_nonneg rows.factor
  linarith

end Balanced

end EuclidRows

namespace Residue

variable {m : Modulus}

/-- The class of a reduced integer is the class of the integer. -/
theorem toZMod_ofNat_emod (z : Int)
    : (ofNat (z % (m.toNat : Int)).toNat : Residue m).toZMod = z := by
  have modulusPositive : (m.toNat : Int) ≠ 0 := by
    have := m.toNat_pos
    omega
  have reduced : ((z % (m.toNat : Int)).toNat : Int) = z % (m.toNat : Int) :=
    Int.toNat_of_nonneg (Int.emod_nonneg z modulusPositive)
  rw [toZMod_ofNat, ← Int.cast_natCast, reduced, ZMod.intCast_mod]

/-- An element other than zero that shares no factor with the modulus has an inverse. -/
theorem exists_inv?_eq_some {x : Residue m} (nonzero : x ≠ 0)
    (coprime : Nat.gcd m.toNat x.toNat = 1)
    : ∃ y, x.inv? = some y ∧ x * y = 1 := by
  have word : x.word ≠ 0 := fun zero => nonzero ((word_eq_zero_iff x).mp zero)
  have divisor := EuclidRows.remainder_finish_start m.toNat x.toNat
  obtain ⟨invariant, _⟩ := (EuclidRows.Invariant.start m.toNat x.toNat).finish
  rw [coprime] at divisor
  refine ⟨_, by rw [inv?, if_neg word]; exact if_pos divisor, ?_⟩
  apply toZMod_injective
  have congruent := invariant.remainder_eq
  rw [divisor, Nat.cast_one] at congruent
  rw [toZMod_mul, toZMod_ofNat_emod, toZMod_one, congruent, mul_comm]
  rfl

/-- Only elements without a common factor with the modulus have an inverse, be it prime or not. -/
theorem mul_of_inv?_eq_some {x y : Residue m} (found : x.inv? = some y) : x * y = 1 := by
  have result := found
  rw [inv?] at found
  split at found
  · exact absurd found (Option.some_ne_none y).symm
  rename_i word
  have nonzero : x ≠ 0 := fun zero => word ((word_eq_zero_iff x).mpr zero)
  simp only at found
  split at found
  · rename_i last
    rw [EuclidRows.remainder_finish_start] at last
    obtain ⟨z, same, unit⟩ := exists_inv?_eq_some nonzero last
    rwa [Option.some.inj (result.symm.trans same)]
  · exact absurd found (Option.some_ne_none y).symm

theorem inv?_zero : (0 : Residue m).inv? = none := by
  rw [inv?, if_pos ((word_eq_zero_iff 0).mpr rfl)]

theorem toNat_eq_zero_iff (x : Residue m) : x.toNat = 0 ↔ x = 0 := by
  rw [← word_eq_zero_iff, ← UInt64.toNat_inj]
  rfl

theorem ofNat_zero : (ofNat 0 : Residue m) = 0 :=
  rfl

theorem ofNat_one : (ofNat 1 : Residue m) = 1 :=
  rfl

theorem ofNat_toNat (x : Residue m) : ofNat x.toNat = x :=
  ext_toNat (by rw [toNat_ofNat, Nat.mod_eq_of_lt x.toNat_lt])

theorem ofNat_ne_zero {n : Nat} (positive : 1 ≤ n) (below : n < m.toNat)
    : (ofNat n : Residue m) ≠ 0 := by
  intro zero
  have number := (toNat_eq_zero_iff _).mpr zero
  rw [toNat_ofNat, Nat.mod_eq_of_lt below] at number
  omega

/-- The elements without an inverse are those that share a factor with the modulus. -/
theorem inv?_eq_none_iff (large : 1 < m.toNat) (x : Residue m)
    : x.inv? = none ↔ 1 < Nat.gcd x.toNat m.toNat := by
  constructor
  · intro missing
    by_contra small
    have positive : 0 < Nat.gcd x.toNat m.toNat := Nat.gcd_pos_of_pos_right _ m.toNat_pos
    have coprime : Nat.gcd m.toNat x.toNat = 1 := by
      rw [Nat.gcd_comm]
      omega
    have nonzero : x ≠ 0 := by
      intro zero
      rw [(toNat_eq_zero_iff x).mpr zero, Nat.gcd_zero_right] at coprime
      omega
    obtain ⟨y, found, _⟩ := exists_inv?_eq_some nonzero coprime
    exact absurd (found.symm.trans missing) (Option.some_ne_none y)
  · intro shared
    rw [inv?]
    split
    · rfl
    · apply if_neg
      rw [EuclidRows.remainder_finish_start, Nat.gcd_comm]
      exact shared.ne'

/-- A product one is congruent to one. -/
theorem modEq_of_mul_eq_one {x y : Residue m} (unit : x * y = 1)
    : x.toNat * y.toNat ≡ 1 [MOD m.toNat] := by
  rw [← ZMod.natCast_eq_natCast_iff, Nat.cast_mul, Nat.cast_one, ← toZMod_one, ← unit, toZMod_mul]
  rfl

/-- Modulo more than one, the element one is the word one. -/
theorem word_eq_one_iff (large : 1 < m.toNat) (x : Residue m) : x.word = 1 ↔ x = 1 := by
  have one : (1 : Residue m).word = 1 :=
    UInt64.toNat_inj.mp ((toNat_ofNat 1).trans (Nat.mod_eq_of_lt large))
  constructor
  · intro same
    exact ext_toNat (congrArg UInt64.toNat (same.trans one.symm))
  · rintro rfl
    exact one

/-- Modulo a prime, every element other than zero shares no factor with the modulus. -/
instance [prime : Fact m.toNat.Prime] : LawfulField (Residue m) where
  zero_ne_one same := by
    have classes := congrArg toZMod same
    rw [toZMod_zero, toZMod_one] at classes
    exact zero_ne_one classes
  isOne_iff x := by
    rw [← word_eq_one_iff prime.out.one_lt]
    exact beq_iff_eq
  inv?_zero := inv?_zero
  inv?_of_ne_zero x nonzero := by
    apply exists_inv?_eq_some nonzero
    apply (Nat.Prime.coprime_iff_not_dvd prime.out).mpr
    intro divides
    have positive : x.toNat ≠ 0 := fun zero => nonzero ((toNat_eq_zero_iff x).mp zero)
    have := Nat.le_of_dvd (by omega) divides
    have := x.toNat_lt
    omega

/-- Fermat's theorem: modulo a prime, the inverse is the power to the modulus less two. -/
theorem inv?_eq_pow [prime : Fact m.toNat.Prime] {x : Residue m} (nonzero : x ≠ 0)
    : x.inv? = some (x.pow (m.toNat - 2)) := by
  have large := prime.out.two_le
  have exponent : m.toNat - 2 + 1 = m.toNat - 1 := by omega
  have unit : x.toZMod ≠ 0 := fun zero => nonzero (toZMod_injective (zero.trans toZMod_zero.symm))
  have power : x.pow (m.toNat - 2) * x = 1 := by
    apply toZMod_injective
    rw [toZMod_mul, toZMod_pow, toZMod_one, ← pow_succ, exponent]
    exact ZMod.pow_card_sub_one_eq_one unit
  rw [eq_inv_of_mul_eq_one_left power]
  exact LawfulField.inv?_eq_some nonzero

end Residue

/-- A prime with four factors of two below it, for results at a fixed modulus. -/
def Modulus.seventeen : Modulus :=
  ⟨17, by decide, by decide⟩

instance : Fact Modulus.seventeen.toNat.Prime := by
  have prime : Nat.Prime 17 := by norm_num
  exact ⟨prime⟩

/-- A product of two primes, for results at a fixed modulus. -/
def Modulus.fifteen : Modulus :=
  ⟨15, by decide, by decide⟩

end FastAlgebra
