import Mathlib
import FastAlgebra.CoeffRing

/-! The laws of coefficient rings and fields. The classes of operations promise none of them;
here they are predicates on top of the operations. A lawful ring is a commutative ring and a
lawful field is a field with these very operations, so the algebra of both is at hand.
-/

namespace FastAlgebra

-----------------------------------------------------------------------------------------
-- Combining copies along the binary digits
-----------------------------------------------------------------------------------------

/-- A map into a monoid that respects both operations turns the walk along the binary digits
into a power, by induction on the walk.
-/
theorem map_combineByBits {R M : Type} [Monoid M] (f : R → M) {combine : R → R → R}
    {double : R → R} (map_combine : ∀ x y, f (combine x y) = f x * f y)
    (map_double : ∀ x, f (double x) = f x * f x) (start base : R) (count : Nat)
    : f (combineByBits combine double start base count) = f start * f base ^ count := by
  induction count using Nat.strongRecOn generalizing start base with
  | ind count ih =>
      rw [combineByBits]
      split
      · rename_i zero
        simp [zero]
      · rename_i positive
        rw [ih (count / 2) (by omega), map_double, ← pow_two, ← pow_mul]
        rcases Nat.mod_two_eq_zero_or_one count with even | odd
        · have whole : 2 * (count / 2) = count := by omega
          rw [if_neg (by omega), whole]
        · have whole : 2 * (count / 2) + 1 = count := by omega
          rw [if_pos odd, map_combine, mul_assoc, ← pow_succ', whole]

/-- What holds of the start and of everything that is combined holds of the result. -/
theorem combineByBits_of_combine {R : Type} {P : R → Prop} {combine : R → R → R}
    {double : R → R} {start : R} (first : P start) (next : ∀ x y, P (combine x y)) (base : R)
    (count : Nat)
    : P (combineByBits combine double start base count) := by
  induction count using Nat.strongRecOn generalizing start base with
  | ind count ih =>
      rw [combineByBits]
      split
      · exact first
      · apply ih (count / 2) (by omega)
        split
        · exact next start base
        · exact first

/-- Squaring along the digits computes powers. -/
theorem powBySquaring_eq {R : Type} [Monoid R] (x : R) (n : Nat)
    : powBySquaring x n = x ^ n := by
  have power : id (powBySquaring x n) = id 1 * id x ^ n :=
    map_combineByBits (id : R → R) (fun _ _ => rfl) (fun _ => rfl) 1 x n
  simpa using power

/-- Doubling along the digits computes multiples of one. -/
theorem sumOfOnes_eq {R : Type} [AddMonoidWithOne R] (n : Nat)
    : (sumOfOnes n : R) = n := by
  have multiple : Multiplicative.ofAdd (sumOfOnes n : R)
      = Multiplicative.ofAdd 0 * Multiplicative.ofAdd 1 ^ n :=
    map_combineByBits (Multiplicative.ofAdd : R → Multiplicative R) (fun _ _ => rfl)
      (fun _ => rfl) 0 1 n
  rw [ofAdd_zero, one_mul, ← ofAdd_nsmul, nsmul_one] at multiple
  exact Multiplicative.ofAdd.injective multiple

-----------------------------------------------------------------------------------------
-- Lawful rings
-----------------------------------------------------------------------------------------

/-- The operations are those of a commutative ring, zero is recognised, and the images of
numbers and the powers are the repeated sums and products. That one is recognised is a law of
fields only: modulo one, the element one is the element zero.
-/
class LawfulRing (R : Type) [CoeffRing R] : Prop where
  add_assoc : ∀ x y z : R, x + y + z = x + (y + z)
  add_comm : ∀ x y : R, x + y = y + x
  zero_add : ∀ x : R, 0 + x = x
  neg_add_cancel : ∀ x : R, -x + x = 0
  sub_eq : ∀ x y : R, x - y = x + -y
  mul_assoc : ∀ x y z : R, x * y * z = x * (y * z)
  mul_comm : ∀ x y : R, x * y = y * x
  one_mul : ∀ x : R, 1 * x = x
  mul_add : ∀ x y z : R, x * (y + z) = x * y + x * z
  isZero_iff : ∀ x : R, CoeffRing.isZero x = true ↔ x = 0
  ofNat_zero : (CoeffRing.ofNat 0 : R) = 0
  ofNat_succ : ∀ n, (CoeffRing.ofNat (n + 1) : R) = CoeffRing.ofNat n + 1
  power_zero : ∀ x : R, CoeffRing.pow x 0 = 1
  power_succ : ∀ (x : R) (n : Nat), CoeffRing.pow x (n + 1) = CoeffRing.pow x n * x

namespace LawfulRing

variable {R : Type} [CoeffRing R] [LawfulRing R]

private theorem eq_zero_of_add_self {x : R} (twice : x + x = x) : x = 0 := by
  have cancelled : -x + (x + x) = -x + x := congrArg (-x + ·) twice
  rwa [← add_assoc, neg_add_cancel, zero_add] at cancelled

private theorem mul_zero (x : R) : x * 0 = 0 := by
  apply eq_zero_of_add_self
  rw [← mul_add, zero_add]

instance (priority := low) toCommRing : CommRing R where
  add_assoc := add_assoc
  zero_add := zero_add
  add_zero x := by rw [add_comm, zero_add]
  add_comm := add_comm
  neg_add_cancel := neg_add_cancel
  sub_eq_add_neg := sub_eq
  mul_assoc := mul_assoc
  one_mul := one_mul
  mul_one x := by rw [mul_comm, one_mul]
  mul_comm := mul_comm
  left_distrib := mul_add
  right_distrib x y z := by rw [mul_comm, mul_add, mul_comm z x, mul_comm z y]
  zero_mul x := by rw [mul_comm, mul_zero]
  mul_zero := mul_zero
  nsmul := nsmulRec
  zsmul := zsmulRec

/-- The image of a number is its cast, by induction on the number. -/
theorem ofNat_eq_cast (n : Nat) : (CoeffRing.ofNat n : R) = n := by
  induction n with
  | zero => rw [ofNat_zero, Nat.cast_zero]
  | succ n ih => rw [ofNat_succ, ih, Nat.cast_succ]

/-- The power of an element is its power in the ring, by induction on the exponent. -/
theorem pow_eq (x : R) (n : Nat) : CoeffRing.pow x n = x ^ n := by
  induction n with
  | zero => rw [power_zero, pow_zero]
  | succ n ih => rw [power_succ, ih, pow_succ]

theorem isZero_eq_false_iff (x : R) : CoeffRing.isZero x = false ↔ x ≠ 0 := by
  rw [Ne, ← isZero_iff, Bool.not_eq_true]

end LawfulRing

-----------------------------------------------------------------------------------------
-- Lawful fields
-----------------------------------------------------------------------------------------

/-- The operations are those of a field: one differs from zero and is recognised, and exactly
the elements other than zero have an inverse.
-/
class LawfulField (F : Type) [CoeffField F] : Prop extends LawfulRing F where
  zero_ne_one : (0 : F) ≠ 1
  isOne_iff : ∀ x : F, CoeffRing.isOne x = true ↔ x = 1
  inv?_zero : CoeffField.inv? (0 : F) = none
  inv?_of_ne_zero : ∀ x : F, x ≠ 0 → ∃ y, CoeffField.inv? x = some y ∧ x * y = 1

namespace LawfulField

variable {F : Type} [CoeffField F] [LawfulField F]

instance (priority := low) toField : Field F :=
  {
    LawfulRing.toCommRing with
    inv := fun x => (CoeffField.inv? x).getD 0
    exists_pair_ne := ⟨0, 1, zero_ne_one⟩
    mul_inv_cancel := fun x nonzero => by
      obtain ⟨y, found, inverse⟩ := inv?_of_ne_zero x nonzero
      simpa [found] using inverse
    inv_zero := by simp [inv?_zero]
    nnqsmul := _
    nnqsmul_def := fun _ _ => rfl
    qsmul := _
    qsmul_def := fun _ _ => rfl
  }

/-- The inverse that is found is the inverse of the field. -/
theorem inv?_eq_some {x : F} (nonzero : x ≠ 0) : CoeffField.inv? x = some x⁻¹ := by
  obtain ⟨y, found, inverse⟩ := inv?_of_ne_zero x nonzero
  rw [found, eq_inv_of_mul_eq_one_right inverse]

theorem mul_inv? (x y : F) (found : CoeffField.inv? x = some y) : x * y = 1 := by
  have nonzero : x ≠ 0 := by
    rintro rfl
    rw [inv?_zero] at found
    exact Option.some_ne_none y found.symm
  obtain ⟨z, same, inverse⟩ := inv?_of_ne_zero x nonzero
  rwa [Option.some.inj (found.symm.trans same)]

theorem inv?_eq_none_iff (x : F) : CoeffField.inv? x = none ↔ x = 0 := by
  constructor
  · intro missing
    by_contra nonzero
    rw [inv?_eq_some nonzero] at missing
    exact Option.some_ne_none _ missing
  · intro zero
    rw [zero, inv?_zero]

end LawfulField

end FastAlgebra
