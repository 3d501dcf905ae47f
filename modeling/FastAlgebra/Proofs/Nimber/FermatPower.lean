import Mathlib
import FastAlgebra.Proofs.Nimber.LeastExcluded

/-! Fermat powers `F = 2 ^ 2 ^ k`. The numbers below one are closed under the product and, because
an inverse is a power, under inverses. The product of `F` and a smaller number is the ordinary one,
and the square of `F` is the sum of `F` and `F / 2`. So a power of two is the product of the Fermat
powers for the digits of its exponent.
-/

namespace FastAlgebra

-----------------------------------------------------------------------------------------
-- Products at a level
-----------------------------------------------------------------------------------------

/-- On the numbers of a level the next level has the same product. -/
theorem nimProduct_succ_eq {k x y : Nat} (hx : x < 2 ^ 2 ^ k) (hy : y < 2 ^ 2 ^ k)
    : nimProduct (k + 1) x y = nimProduct k x y := by
  have joined := nimProduct_join k (a := 0) (c := 0) hx hy
  simpa using joined

/-- On the numbers of a level every higher level has the same product, by induction on it. -/
theorem nimProduct_eq_of_le {j k x y : Nat} (higher : j ≤ k) (hx : x < 2 ^ 2 ^ j)
    (hy : y < 2 ^ 2 ^ j)
    : nimProduct k x y = nimProduct j x y := by
  induction k, higher using Nat.le_induction with
  | base => rfl
  | succ k higher ih =>
      have wide := two_pow_two_pow_le higher
      rw [nimProduct_succ_eq (hx.trans_le wide) (hy.trans_le wide), ih]

theorem nimProduct_one_right {k x : Nat} (hx : x < 2 ^ 2 ^ k) : nimProduct k x 1 = x := by
  obtain ⟨K, field, value, level⟩ := exists_nimLevel k
  have one := one_lt_two_pow_two_pow k
  apply level.injective _ (nimProduct_lt hx one) _ hx
  rw [level.product x hx 1 one, level.one, mul_one]

theorem nimProduct_one_left {k x : Nat} (hx : x < 2 ^ 2 ^ k) : nimProduct k 1 x = x := by
  obtain ⟨K, field, value, level⟩ := exists_nimLevel k
  rw [level.nimProduct_comm (one_lt_two_pow_two_pow k) hx, nimProduct_one_right hx]

/-- A Fermat power moves a smaller number to the upper half, as the ordinary product does. -/
theorem nimProduct_fermat {k x : Nat} (hx : x < 2 ^ 2 ^ k)
    : nimProduct (k + 1) x (2 ^ 2 ^ k) = x * 2 ^ 2 ^ k := by
  have joined := nimProduct_join k (a := 0) (c := 1) hx (Nat.two_pow_pos (2 ^ k))
  simpa [nimProduct_one_right hx, Nat.shiftLeft_eq] using joined

/-- The square of a Fermat power is the sum of it and its half. -/
theorem nimProduct_fermat_self (k : Nat)
    : nimProduct (k + 1) (2 ^ 2 ^ k) (2 ^ 2 ^ k) = 2 ^ 2 ^ k ^^^ 2 ^ 2 ^ k / 2 := by
  have half : 2 ^ 2 ^ k / 2 = 2 ^ (2 ^ k - 1) := Nat.pow_div (Nat.two_pow_pos k) Nat.two_pos
  have joined := nimProduct_join k (a := 1) (c := 1) (Nat.two_pow_pos (2 ^ k))
    (Nat.two_pow_pos (2 ^ k))
  rw [half]
  simpa [nimProduct_one_left (one_lt_two_pow_two_pow k), nimProduct_one_left (two_pow_pred_lt k),
    Nat.shiftLeft_eq] using joined

-----------------------------------------------------------------------------------------
-- Words below a Fermat power
-----------------------------------------------------------------------------------------

namespace Nimber

theorem eq_of_toNat {x y : Nimber} (same : x.word.toNat = y.word.toNat) : x = y := by
  obtain ⟨x⟩ := x
  obtain ⟨y⟩ := y
  exact congrArg mk (UInt64.toNat_inj.mp same)

/-- The product of words of a level is the product at that level. -/
theorem toNat_mul_of_lt {k : Nat} (small : k ≤ 6) {x y : Nimber} (hx : x.word.toNat < 2 ^ 2 ^ k)
    (hy : y.word.toNat < 2 ^ 2 ^ k)
    : (x * y).word.toNat = nimProduct k x.word.toNat y.word.toNat := by
  obtain ⟨K, field, value, level⟩ := exists_nimLevel 6
  rw [toNat_mul level, nimProduct_eq_of_le small hx hy]

theorem toNat_mul_lt {k : Nat} (small : k ≤ 6) {x y : Nimber} (hx : x.word.toNat < 2 ^ 2 ^ k)
    (hy : y.word.toNat < 2 ^ 2 ^ k)
    : (x * y).word.toNat < 2 ^ 2 ^ k := by
  rw [toNat_mul_of_lt small hx hy]
  exact nimProduct_lt hx hy

/-- Whatever the exponent is, a power stays below, by induction on it. -/
theorem toNat_pow_lt {k : Nat} (small : k ≤ 6) {x : Nimber} (hx : x.word.toNat < 2 ^ 2 ^ k)
    (n : Nat)
    : (x.pow n).word.toNat < 2 ^ 2 ^ k := by
  induction n with
  | zero =>
      have one : x.pow 0 = 1 := LawfulRing.power_zero x
      rw [one, toNat_word_one]
      exact one_lt_two_pow_two_pow k
  | succ n ih =>
      have next : x.pow (n + 1) = x.pow n * x := LawfulRing.power_succ x n
      rw [next]
      exact toNat_mul_lt small ih hx

/-- The exponent of the inverse belongs to the field of all words, but the inverse stays below. -/
theorem exists_inv?_lt {k : Nat} (small : k ≤ 6) {x : Nimber} (hx : x.word.toNat < 2 ^ 2 ^ k)
    (nonzero : x ≠ 0)
    : ∃ v, x.inv? = some v ∧ x * v = 1 ∧ v.word.toNat < 2 ^ 2 ^ k := by
  obtain ⟨v, found, inverse⟩ := LawfulField.inv?_of_ne_zero x nonzero
  have word : x.word ≠ 0 := fun zero => nonzero (congrArg mk zero)
  have power : x.inv? = some (x.pow (powerOfTwo 64 - 2)) := if_neg word
  obtain rfl : x.pow (powerOfTwo 64 - 2) = v := Option.some.inj (power.symm.trans found)
  exact ⟨_, found, inverse, toNat_pow_lt small hx _⟩

-----------------------------------------------------------------------------------------
-- Powers of two
-----------------------------------------------------------------------------------------

/-- The power of two with one at a single place. -/
def ofDigit (place : Nat) : Nimber :=
  ⟨UInt64.ofNat (2 ^ place)⟩

theorem toNat_ofDigit {place : Nat} (inside : place < 64)
    : (ofDigit place).word.toNat = 2 ^ place :=
  UInt64.toNat_ofNat_of_lt' (Nat.pow_lt_pow_right (by omega) inside)

@[simp]
theorem ofDigit_zero : ofDigit 0 = 1 :=
  rfl

theorem nimTableEntry_eq {i j : Nat} (hi : i < 64) (hj : j < 64)
    : nimTableEntry i j = (ofDigit i * ofDigit j).word := by
  obtain ⟨K, field, value, level⟩ := exists_nimLevel 6
  rw [← UInt64.toNat_inj, toNat_nimTableEntry hi hj, toNat_mul level, toNat_ofDigit hi,
    toNat_ofDigit hj]

theorem two_pow_lt_of_le {k : Nat} (small : k ≤ 5) : 2 ^ k < 64 :=
  (Nat.pow_le_pow_right Nat.two_pos small).trans_lt (by decide)

theorem toNat_fermat_lt {k : Nat} (small : k ≤ 5)
    : (ofDigit (2 ^ k)).word.toNat < 2 ^ 2 ^ (k + 1) := by
  rw [toNat_ofDigit (two_pow_lt_of_le small)]
  exact Nat.pow_lt_pow_right Nat.one_lt_two
    (Nat.pow_lt_pow_right Nat.one_lt_two (Nat.lt_succ_self k))

theorem toNat_mul_fermat {k : Nat} (small : k ≤ 5) {x : Nimber} (hx : x.word.toNat < 2 ^ 2 ^ k)
    : (x * ofDigit (2 ^ k)).word.toNat = x.word.toNat * 2 ^ 2 ^ k := by
  rw [toNat_mul_of_lt (Nat.succ_le_succ small) (lt_next hx) (toNat_fermat_lt small),
    toNat_ofDigit (two_pow_lt_of_le small), nimProduct_fermat hx]

theorem toNat_fermat_mul_self {k : Nat} (small : k ≤ 5)
    : (ofDigit (2 ^ k) * ofDigit (2 ^ k)).word.toNat = 2 ^ 2 ^ k ^^^ 2 ^ 2 ^ k / 2 := by
  have fits := toNat_fermat_lt small
  rw [toNat_mul_of_lt (Nat.succ_le_succ small) fits fits,
    toNat_ofDigit (two_pow_lt_of_le small), nimProduct_fermat_self]

/-- A digit above those of an exponent multiplies in. -/
theorem ofDigit_add {k n : Nat} (small : k ≤ 5) (lower : n < 2 ^ k)
    : ofDigit (n + 2 ^ k) = ofDigit n * ofDigit (2 ^ k) := by
  have wide : 2 ^ (k + 1) ≤ 64 := Nat.pow_le_pow_right Nat.two_pos (Nat.succ_le_succ small)
  rw [pow_succ] at wide
  have power : (ofDigit n).word.toNat = 2 ^ n := toNat_ofDigit (by omega)
  have fits : (ofDigit n).word.toNat < 2 ^ 2 ^ k := by
    rw [power]
    exact Nat.pow_lt_pow_right Nat.one_lt_two lower
  apply eq_of_toNat
  rw [toNat_mul_fermat small fits, power, toNat_ofDigit (by omega), pow_add]

/-- The power of two with one more digit of an exponent. -/
theorem ofDigit_mod_succ {k : Nat} (small : k ≤ 5) (n : Nat)
    : ofDigit (n % 2 ^ (k + 1))
      = ofDigit (n % 2 ^ k) * (if n.testBit k then ofDigit (2 ^ k) else 1) := by
  rw [Nat.mod_pow_succ, ← Nat.toNat_testBit]
  cases n.testBit k with
  | false => simp
  | true => simp [ofDigit_add small (Nat.mod_lt n (Nat.two_pow_pos k))]

end Nimber

end FastAlgebra
