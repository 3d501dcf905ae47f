import Mathlib
import FastAlgebra.Residue.Basic
import FastAlgebra.Proofs.CoeffRing

/-! The residues of a modulus are the ring of integers modulo it. The word operations are read in
the natural numbers first, where none of them wraps around, and then modulo the modulus.
-/

namespace FastAlgebra

namespace Modulus

theorem toNat_pos (m : Modulus) : 0 < m.toNat :=
  m.pos

theorem toNat_word (m : Modulus) : m.word.toNat = m.toNat :=
  rfl

instance (m : Modulus) : NeZero m.toNat :=
  ⟨Nat.ne_of_gt m.toNat_pos⟩

/-- The power reduced at every step is congruent to the power. -/
theorem cast_powMod (m : Modulus) (base exponent : Nat)
    : (m.powMod base exponent : ZMod m.toNat) = (base : ZMod m.toNat) ^ exponent := by
  have power := map_combineByBits (fun n : Nat => (n : ZMod m.toNat))
    (fun x y => by rw [ZMod.natCast_mod, Nat.cast_mul])
    (fun x => by rw [ZMod.natCast_mod, Nat.cast_mul]) (1 % m.toNat) (base % m.toNat) exponent
  simpa only [powMod, ZMod.natCast_mod, Nat.cast_one, one_mul] using power

/-- The reduced power is a representative. -/
theorem powMod_lt (m : Modulus) (base exponent : Nat) : m.powMod base exponent < m.toNat := by
  apply combineByBits_of_combine (P := (· < m.toNat))
  · exact Nat.mod_lt 1 m.toNat_pos
  · exact fun x y => Nat.mod_lt (x * y) m.toNat_pos

end Modulus

namespace Residue

variable {m : Modulus}

-----------------------------------------------------------------------------------------
-- The operations on representatives
-----------------------------------------------------------------------------------------

theorem toNat_word (x : Residue m) : x.word.toNat = x.toNat :=
  rfl

theorem toNat_lt (x : Residue m) : x.toNat < m.toNat :=
  x.lt

/-- A residue is determined by its representative. -/
theorem ext_toNat {x y : Residue m} (same : x.toNat = y.toNat) : x = y := by
  cases x
  cases y
  simpa only [Residue.mk.injEq] using UInt64.toNat_inj.mp same

theorem toNat_ofNat (n : Nat) : (ofNat n : Residue m).toNat = n % m.toNat := by
  have small : n % m.toNat < m.toNat := Nat.mod_lt n m.pos
  have bound : m.toNat < 0x8000000000000000 := m.lt
  exact UInt64.toNat_ofNat_of_lt' (by simp only [UInt64.size]; omega)

/-- The sum of two representatives fits into a word. -/
theorem toNat_word_add (x y : Residue m)
    : (x.word + y.word).toNat = x.toNat + y.toNat := by
  have hx := x.toNat_lt
  have hy := y.toNat_lt
  have hm : m.toNat < 0x8000000000000000 := m.lt
  rw [UInt64.toNat_add, toNat_word, toNat_word]
  exact Nat.mod_eq_of_lt (by omega)

theorem toNat_add (x y : Residue m) : (x + y).toNat = (x.toNat + y.toNat) % m.toNat := by
  have hx := x.toNat_lt
  have hy := y.toNat_lt
  have sum := toNat_word_add x y
  change (if x.word + y.word ≥ m.word then x.word + y.word - m.word else x.word + y.word).toNat
    = _
  split
  · rename_i reached
    have atLeast : m.toNat ≤ x.toNat + y.toNat := sum ▸ UInt64.le_iff_toNat_le.mp reached
    rw [UInt64.toNat_sub_of_le _ _ reached, sum, Modulus.toNat_word,
      Nat.mod_eq_sub_mod atLeast]
    exact (Nat.mod_eq_of_lt (by omega)).symm
  · rename_i within
    have below : x.toNat + y.toNat < m.toNat :=
      sum ▸ UInt64.lt_iff_toNat_lt.mp (UInt64.not_le.mp within)
    rw [sum, Nat.mod_eq_of_lt below]

theorem toNat_sub (x y : Residue m)
    : (x - y).toNat = (x.toNat + (m.toNat - y.toNat)) % m.toNat := by
  have hx := x.toNat_lt
  have hy := y.toNat_lt
  have hm : m.toNat < 0x8000000000000000 := m.lt
  change (if x.word ≥ y.word then x.word - y.word else x.word + m.word - y.word).toNat = _
  -- In the second branch the sum of the words stays below `2 ^ 64`, as the modulus is below half.
  split
  · rename_i reached
    have atLeast : y.toNat ≤ x.toNat := UInt64.le_iff_toNat_le.mp reached
    have wrapped : x.toNat + (m.toNat - y.toNat) = x.toNat - y.toNat + m.toNat := by omega
    rw [UInt64.toNat_sub_of_le _ _ reached, toNat_word, toNat_word, wrapped, Nat.add_mod_right]
    exact (Nat.mod_eq_of_lt (by omega)).symm
  · rename_i within
    have below : x.toNat < y.toNat := UInt64.lt_iff_toNat_lt.mp (UInt64.not_le.mp within)
    have sum : (x.word + m.word).toNat = x.toNat + m.toNat := by
      rw [UInt64.toNat_add, toNat_word, Modulus.toNat_word]
      exact Nat.mod_eq_of_lt (by omega)
    have wide : y.word ≤ x.word + m.word := by
      rw [UInt64.le_iff_toNat_le, sum, toNat_word]
      omega
    rw [UInt64.toNat_sub_of_le _ _ wide, sum, toNat_word, Nat.mod_eq_of_lt (by omega)]
    omega

theorem toNat_neg (x : Residue m) : (-x).toNat = (m.toNat - x.toNat) % m.toNat := by
  have hx := x.toNat_lt
  change (neg x).toNat = _
  rw [neg]
  split
  · rename_i zero
    have none : x.toNat = 0 := by simp [toNat, zero]
    rw [none, Nat.sub_zero, Nat.mod_self]
  · rename_i nonzero
    have some : x.toNat ≠ 0 := fun none => nonzero (UInt64.toNat_inj.mp none)
    have within : x.word ≤ m.word := UInt64.le_iff_toNat_le.mpr (Nat.le_of_lt hx)
    have small : m.toNat - x.toNat < m.toNat := by omega
    rw [toNat, UInt64.toNat_sub_of_le _ _ within]
    exact (Nat.mod_eq_of_lt small).symm

-----------------------------------------------------------------------------------------
-- The residues as integers modulo the modulus
-----------------------------------------------------------------------------------------

/-- The class of the representative. -/
def toZMod (x : Residue m) : ZMod m.toNat :=
  x.toNat

theorem toZMod_injective : Function.Injective (toZMod : Residue m → ZMod m.toNat) := by
  intro x y same
  have congruent := (ZMod.natCast_eq_natCast_iff' x.toNat y.toNat m.toNat).mp same
  rw [Nat.mod_eq_of_lt x.toNat_lt, Nat.mod_eq_of_lt y.toNat_lt] at congruent
  exact ext_toNat congruent

@[simp]
theorem toZMod_ofNat (n : Nat) : (ofNat n : Residue m).toZMod = n := by
  rw [toZMod, toNat_ofNat, ZMod.natCast_mod]

@[simp]
theorem toZMod_zero : (0 : Residue m).toZMod = 0 :=
  (toZMod_ofNat 0).trans Nat.cast_zero

@[simp]
theorem toZMod_one : (1 : Residue m).toZMod = 1 :=
  (toZMod_ofNat 1).trans Nat.cast_one

@[simp]
theorem toZMod_add (x y : Residue m) : (x + y).toZMod = x.toZMod + y.toZMod := by
  rw [toZMod, toNat_add, ZMod.natCast_mod, Nat.cast_add]
  rfl

@[simp]
theorem toZMod_sub (x y : Residue m) : (x - y).toZMod = x.toZMod - y.toZMod := by
  rw [toZMod, toNat_sub, ZMod.natCast_mod, Nat.cast_add, Nat.cast_sub y.toNat_lt.le,
    ZMod.natCast_self, zero_sub, ← sub_eq_add_neg]
  rfl

@[simp]
theorem toZMod_neg (x : Residue m) : (-x).toZMod = -x.toZMod := by
  rw [toZMod, toNat_neg, ZMod.natCast_mod, Nat.cast_sub x.toNat_lt.le, ZMod.natCast_self,
    zero_sub]
  rfl

@[simp]
theorem toZMod_mul (x y : Residue m) : (x * y).toZMod = x.toZMod * y.toZMod := by
  change (ofNat (x.toNat * y.toNat) : Residue m).toZMod = _
  rw [toZMod_ofNat, Nat.cast_mul]
  rfl

@[simp]
theorem toZMod_pow (x : Residue m) (n : Nat) : (x.pow n).toZMod = x.toZMod ^ n := by
  rw [pow, toZMod_ofNat, Modulus.cast_powMod]
  rfl

/-- The zero element is recognised by its word. -/
theorem word_eq_zero_iff (x : Residue m) : x.word = 0 ↔ x = 0 := by
  constructor
  · intro zero
    apply toZMod_injective
    rw [toZMod_zero, toZMod, toNat, zero, UInt64.toNat_zero, Nat.cast_zero]
  · rintro rfl
    apply UInt64.toNat_inj.mp
    exact (toNat_ofNat 0).trans (Nat.zero_mod _)

/-- Every law is the one of the integers modulo the modulus. -/
instance : LawfulRing (Residue m) where
  add_assoc x y z := toZMod_injective (by simp only [toZMod_add, add_assoc])
  add_comm x y := toZMod_injective (by simp only [toZMod_add, add_comm])
  zero_add x := toZMod_injective (by simp only [toZMod_add, toZMod_zero, zero_add])
  neg_add_cancel x := toZMod_injective (by
    simp only [toZMod_add, toZMod_neg, toZMod_zero, neg_add_cancel])
  sub_eq x y := toZMod_injective (by
    simp only [toZMod_add, toZMod_neg, toZMod_sub, sub_eq_add_neg])
  mul_assoc x y z := toZMod_injective (by simp only [toZMod_mul, mul_assoc])
  mul_comm x y := toZMod_injective (by simp only [toZMod_mul, mul_comm])
  one_mul x := toZMod_injective (by simp only [toZMod_mul, toZMod_one, one_mul])
  mul_add x y z := toZMod_injective (by simp only [toZMod_mul, toZMod_add, mul_add])
  isZero_iff x := by
    rw [← word_eq_zero_iff]
    exact beq_iff_eq
  ofNat_zero := rfl
  ofNat_succ n := toZMod_injective (by
    rw [toZMod_add, toZMod_one]
    exact (toZMod_ofNat (n + 1)).trans
      ((Nat.cast_succ n).trans (congrArg (· + 1) (toZMod_ofNat n).symm)))
  power_zero x := toZMod_injective (by
    rw [toZMod_one]
    exact (toZMod_pow x 0).trans (pow_zero _))
  power_succ x n := toZMod_injective (by
    rw [toZMod_mul]
    exact (toZMod_pow x (n + 1)).trans
      ((pow_succ _ n).trans (congrArg (· * x.toZMod) (toZMod_pow x n).symm)))

/-- The class of the representative, as an isomorphism. -/
def equivZMod : Residue m ≃+* ZMod m.toNat where
  toFun := toZMod
  invFun z := ofNat z.val
  left_inv x := toZMod_injective (by rw [toZMod_ofNat, ZMod.natCast_zmod_val])
  right_inv z := by rw [toZMod_ofNat, ZMod.natCast_zmod_val]
  map_add' := toZMod_add
  map_mul' := toZMod_mul

/-- The characteristic of the residues is the modulus. -/
theorem ringChar_eq : ringChar (Residue m) = m.toNat := by
  have : CharP (Residue m) m.toNat :=
    charP_of_injective_ringHom (f := (equivZMod (m := m)).symm.toRingHom)
      equivZMod.symm.injective m.toNat
  exact ringChar.eq (Residue m) m.toNat

/-- The power on representatives is the power of the ring. -/
theorem pow_eq (x : Residue m) (n : Nat) : x.pow n = x ^ n :=
  LawfulRing.pow_eq x n

end Residue

end FastAlgebra
