import Mathlib
import FastAlgebra.Proofs.CoeffRing
import FastAlgebra.Proofs.Nimber.Tower

/-! The nimbers are a field. A word is the sum of the powers of two at its ones, so the product by
the table of products of powers of two is the product of the top level of the tower.
-/

namespace FastAlgebra

-----------------------------------------------------------------------------------------
-- Words as sums of powers of two
-----------------------------------------------------------------------------------------

/-- The nim-product at the level of the words. -/
theorem toNat_nimTableEntry {i j : Nat} (hi : i < 64) (hj : j < 64)
    : (nimTableEntry i j).toNat = nimProduct 6 (2 ^ i) (2 ^ j) := by
  have bound : nimProduct 6 (2 ^ i) (2 ^ j) < 2 ^ 2 ^ 6 :=
    nimProduct_lt (Nat.pow_lt_pow_right (by omega) hi) (Nat.pow_lt_pow_right (by omega) hj)
  have entry : nimTableEntry i j = UInt64.ofNat (nimProduct 6 (2 ^ i) (2 ^ j)) := by
    simp [nimTableEntry, nimTable, Array.getD_eq_getD_getElem?, hi, hj]
  rw [entry]
  exact UInt64.toNat_ofNat_of_lt' bound

/-- The positions of the ones are the binary digits that are set. -/
theorem onesOf_eq (w : UInt64) : onesOf w = (List.range 64).filter w.toNat.testBit := by
  apply List.filter_congr
  intro i member
  have small : i < 64 := List.mem_range.mp member
  have position : (UInt64.ofNat i).toNat % 64 = i := by
    rw [UInt64.toNat_ofNat_of_lt' (small.trans (by decide)), Nat.mod_eq_of_lt small]
  rw [Bool.eq_iff_iff, beq_iff_eq, ← UInt64.toNat_inj, UInt64.toNat_and, UInt64.toNat_shiftRight,
    position, UInt64.toNat_one, Nat.and_one_is_mod, Nat.shiftRight_eq_div_pow,
    Nat.testBit_eq_decide_div_mod_eq, decide_eq_true_iff]

/-- A number is its highest digit and the rest. -/
theorem mod_two_pow_xor {b n : Nat} (h : n < 2 ^ (b + 1))
    : n % 2 ^ b ^^^ (if n.testBit b then 2 ^ b else 0) = n := by
  apply Nat.eq_of_testBit_eq
  intro i
  rw [Nat.testBit_xor, Nat.testBit_mod_two_pow]
  rcases Nat.lt_trichotomy i b with below | rfl | above
  · split <;> simp [below, below.ne']
  · split <;> simp_all
  · have none : n.testBit i = false :=
      Nat.testBit_lt_two_pow (h.trans_le (Nat.pow_le_pow_right (by omega) above))
    split <;> simp [none, above.ne]

theorem Nimber.toNat_word_one : (1 : Nimber).word.toNat = 1 :=
  rfl

namespace NimLevel

variable {K : Type} [Field K] {value : Nat → K}

/-- The value of a number is the sum of the values at its ones, by induction on the number of
digits.
-/
theorem value_eq_sum {k : Nat} (level : NimLevel k K value) {b n : Nat} (digits : b ≤ 2 ^ k)
    (h : n < 2 ^ b)
    : value n = (((List.range b).filter n.testBit).map fun i => value (2 ^ i)).sum := by
  induction b generalizing n with
  | zero =>
      obtain rfl : n = 0 := by simpa using h
      simp [level.zero]
  | succ b ih =>
      have lower : n % 2 ^ b < 2 ^ b := Nat.mod_lt n (Nat.two_pow_pos b)
      have wide : (2 : Nat) ^ b < 2 ^ 2 ^ k := Nat.pow_lt_pow_right (by omega) digits
      have rest := ih (Nat.le_of_succ_le digits) lower
      have agree : (List.range b).filter (n % 2 ^ b).testBit = (List.range b).filter n.testBit := by
        apply List.filter_congr
        intro i member
        rw [Nat.testBit_mod_two_pow, decide_eq_true (List.mem_range.mp member), Bool.true_and]
      have joined := mod_two_pow_xor h
      rw [List.range_succ, List.filter_append, List.map_append, List.sum_append, ← agree, ← rest]
      cases top : n.testBit b with
      | false =>
          rw [top, if_neg Bool.false_ne_true, Nat.xor_zero] at joined
          simp [top, joined]
      | true =>
          rw [top, if_pos rfl] at joined
          have split := level.xor _ (lower.trans wide) _ wide
          rw [joined] at split
          simp [top, split]

theorem value_word_xor (level : NimLevel 6 K value) (x y : UInt64)
    : value (x ^^^ y).toNat = value x.toNat + value y.toNat := by
  rw [UInt64.toNat_xor]
  exact level.xor _ x.toNat_lt _ y.toNat_lt

/-- A loop whose steps add to the value adds up what its steps add, by induction on the list. -/
theorem value_foldl {f : UInt64 → Nat → UInt64} {g : Nat → K} {positions : List Nat}
    (step : ∀ word, ∀ i ∈ positions, value (f word i).toNat = value word.toNat + g i)
    (start : UInt64)
    : value (positions.foldl f start).toNat = value start.toNat + (positions.map g).sum := by
  induction positions generalizing start with
  | nil => simp
  | cons i rest ih =>
      have later : ∀ word, ∀ j ∈ rest, value (f word j).toNat = value word.toNat + g j :=
        fun word j member => step word j (List.mem_cons_of_mem i member)
      rw [List.foldl_cons, ih later, step start i (by simp), List.map_cons, List.sum_cons,
        add_assoc]

/-- The value of a word is the sum of the values at its ones. -/
theorem value_word (level : NimLevel 6 K value) (w : UInt64)
    : value w.toNat = ((onesOf w).map fun i => value (2 ^ i)).sum := by
  rw [onesOf_eq]
  exact level.value_eq_sum (Nat.le_refl 64) w.toNat_lt

theorem lt_of_mem_onesOf {w : UInt64} {i : Nat} (member : i ∈ onesOf w) : i < 64 :=
  List.mem_range.mp (List.mem_filter.mp member).1

/-- The value of a table entry is the product of the values of the two powers. -/
theorem value_nimTableEntry (level : NimLevel 6 K value) {i j : Nat} (hi : i < 64) (hj : j < 64)
    : value (nimTableEntry i j).toNat = value (2 ^ i) * value (2 ^ j) := by
  rw [toNat_nimTableEntry hi hj]
  exact level.product _ (Nat.pow_lt_pow_right (by omega) hi) _ (Nat.pow_lt_pow_right (by omega) hj)

/-- The product of words is the product of their values: both sums are multiplied out. -/
theorem value_mul (level : NimLevel 6 K value) (x y : Nimber)
    : value (x * y).word.toNat = value x.word.toNat * value y.word.toNat := by
  have rows : ∀ word, ∀ i ∈ onesOf x.word,
      value ((onesOf y.word).foldl (fun sum j => sum ^^^ nimTableEntry i j) word).toNat
        = value word.toNat + value (2 ^ i) * value y.word.toNat := by
    intro word i row
    have columns : ∀ sum, ∀ j ∈ onesOf y.word,
        value (sum ^^^ nimTableEntry i j).toNat
          = value sum.toNat + value (2 ^ i) * value (2 ^ j) := by
      intro sum j column
      rw [level.value_word_xor,
        level.value_nimTableEntry (lt_of_mem_onesOf row) (lt_of_mem_onesOf column)]
    rw [value_foldl columns, List.sum_map_mul_left, ← level.value_word]
  have products := value_foldl rows 0
  rw [List.sum_map_mul_right, ← level.value_word, UInt64.toNat_zero, level.zero,
    zero_add] at products
  exact products

/-- Squares are additive, so the diagonal of the table is enough for a square. -/
theorem value_square (level : NimLevel 6 K value) (x : Nimber)
    : value x.square.word.toNat = value x.word.toNat * value x.word.toNat := by
  have : CharP K 2 := CharTwo.of_one_ne_zero_of_two_eq_zero one_ne_zero level.two_eq_zero
  have diagonal : ∀ word, ∀ i ∈ onesOf x.word,
      value (word ^^^ nimTableEntry i i).toNat
        = value word.toNat + value (2 ^ i) * value (2 ^ i) := by
    intro word i member
    have small := lt_of_mem_onesOf member
    rw [level.value_word_xor, level.value_nimTableEntry small small]
  have squares := value_foldl diagonal 0
  rw [UInt64.toNat_zero, level.zero, zero_add] at squares
  rw [level.value_word x.word, CharTwo.list_sum_mul_self, List.map_map]
  exact squares

/-- The power of a word by squaring is the power of its value. -/
theorem value_pow (level : NimLevel 6 K value) (x : Nimber) (n : Nat)
    : value (x.pow n).word.toNat = value x.word.toNat ^ n := by
  have power := map_combineByBits (fun x : Nimber => value x.word.toNat) level.value_mul
    level.value_square 1 x n
  rwa [Nimber.toNat_word_one, level.one, one_mul] at power

theorem value_injective (level : NimLevel 6 K value)
    : Function.Injective (fun x : Nimber => value x.word.toNat) := by
  rintro ⟨x⟩ ⟨y⟩ same
  rw [UInt64.toNat_inj.mp (level.injective _ x.toNat_lt _ y.toNat_lt same)]

end NimLevel

-----------------------------------------------------------------------------------------
-- The laws
-----------------------------------------------------------------------------------------

namespace Nimber

variable {K : Type} [Field K] {value : Nat → K}

/-- Every law is the one of the field at the top of the tower. -/
theorem lawfulRing (level : NimLevel 6 K value) : LawfulRing Nimber where
  add_assoc x y z := congrArg mk (UInt64.xor_assoc x.word y.word z.word)
  add_comm x y := congrArg mk (UInt64.xor_comm x.word y.word)
  zero_add x := congrArg mk UInt64.zero_xor
  neg_add_cancel x := congrArg mk UInt64.xor_self
  sub_eq x y := rfl
  mul_assoc x y z := level.value_injective (by simp only [level.value_mul, mul_assoc])
  mul_comm x y := level.value_injective (by simp only [level.value_mul, mul_comm])
  one_mul x := level.value_injective (by
    simp only [level.value_mul, toNat_word_one, level.one, one_mul])
  mul_add x y z := level.value_injective (by
    have sum : ∀ u v : Nimber,
        value (u + v).word.toNat = value u.word.toNat + value v.word.toNat :=
      fun u v => level.value_word_xor u.word v.word
    simp only [level.value_mul, sum, mul_add])
  isZero_iff x := by
    change (x.word == 0) = true ↔ x = 0
    rw [beq_iff_eq]
    exact ⟨fun same => congrArg mk same, fun same => congrArg word same⟩
  ofNat_zero := rfl
  ofNat_succ n := by
    change mk (UInt64.ofNat ((n + 1) % 2)) = mk (UInt64.ofNat (n % 2) ^^^ 1)
    rcases Nat.mod_two_eq_zero_or_one n with even | odd
    · have next : (n + 1) % 2 = 1 := by omega
      rw [even, next]
      rfl
    · have next : (n + 1) % 2 = 0 := by omega
      rw [odd, next]
      rfl
  power_zero x := level.value_injective (by
    change value (x.pow 0).word.toNat = value 1
    rw [level.value_pow, pow_zero, level.one])
  power_succ x n := level.value_injective (by
    change value (x.pow (n + 1)).word.toNat = value (x.pow n * x).word.toNat
    rw [level.value_mul, level.value_pow, level.value_pow, pow_succ])

/-- The power to two less than the number of words inverts an element other than zero. -/
theorem mul_pow_eq_one (level : NimLevel 6 K value) {x : Nimber} (nonzero : x ≠ 0)
    : x * x.pow (powerOfTwo 64 - 2) = 1 := by
  have unit : value x.word.toNat ≠ 0 := by
    intro zero
    apply nonzero
    apply level.value_injective
    exact zero.trans level.zero.symm
  apply level.value_injective
  change value (x * x.pow (powerOfTwo 64 - 2)).word.toNat = value 1
  rw [level.value_mul, level.value_pow, powerOfTwo_eq, ← pow_succ', level.one]
  exact level.pow_eq_one unit

instance : LawfulField Nimber := by
  obtain ⟨K, field, value, level⟩ := exists_nimLevel 6
  exact {
    lawfulRing level with
    zero_ne_one := by decide
    isOne_iff := by
      intro x
      change (x.word == 1) = true ↔ x = 1
      rw [beq_iff_eq]
      exact ⟨fun same => congrArg mk same, fun same => congrArg word same⟩
    inv?_zero := rfl
    inv?_of_ne_zero := by
      intro x nonzero
      have word : x.word ≠ 0 := fun zero => nonzero (congrArg mk zero)
      exact ⟨_, if_neg word, mul_pow_eq_one level nonzero⟩
  }

/-- An element times its power to the number of units is the element, zero included. -/
theorem mul_pow_units (x : Nimber) : x * x.pow (2 ^ 64 - 1) = x := by
  by_cases zero : x = 0
  · rw [zero]
    exact zero_mul _
  · obtain ⟨K, field, value, level⟩ := exists_nimLevel 6
    have inverse := mul_pow_eq_one level zero
    have next : x.pow (2 ^ 64 - 1) = x.pow (2 ^ 64 - 2) * x :=
      LawfulRing.power_succ x (2 ^ 64 - 2)
    rw [powerOfTwo_eq] at inverse
    rw [next, LawfulRing.mul_comm _ x, inverse]
    exact mul_one x

end Nimber

end FastAlgebra
