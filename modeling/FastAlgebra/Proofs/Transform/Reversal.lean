import Mathlib
import FastAlgebra.Transform.Plan

/-! The table of reversed indices. Its entries are the binary digits of the index in reverse, and
shifting them serves every shorter length as well.
-/

namespace FastAlgebra

/-- The lowest `t` binary digits of a number in reverse. -/
def reverseDigits : (t : Nat) → Nat → Nat
  | 0, _ => 0
  | t + 1, i => i % 2 * 2 ^ t + reverseDigits t (i / 2)

@[simp]
theorem reverseDigits_zero (i : Nat) : reverseDigits 0 i = 0 :=
  rfl

theorem reverseDigits_succ (t i : Nat)
    : reverseDigits (t + 1) i = i % 2 * 2 ^ t + reverseDigits t (i / 2) :=
  rfl

theorem reverseDigits_of_zero (t : Nat) : reverseDigits t 0 = 0 := by
  induction t with
  | zero => rfl
  | succ t ih => simp [reverseDigits_succ, ih]

theorem reverseDigits_lt (t i : Nat) : reverseDigits t i < 2 ^ t := by
  induction t generalizing i with
  | zero => simp
  | succ t ih =>
      have rest := ih (i / 2)
      rw [reverseDigits_succ, pow_succ]
      rcases Nat.mod_two_eq_zero_or_one i with even | odd
      · rw [even]
        omega
      · rw [odd]
        omega

/-- A leading digit zero becomes a last digit zero, by induction on the number of digits. -/
theorem reverseDigits_succ_of_lt {t i : Nat} (small : i < 2 ^ t)
    : reverseDigits (t + 1) i = 2 * reverseDigits t i := by
  induction t generalizing i with
  | zero =>
      have zero : i = 0 := by simpa using small
      simp [zero, reverseDigits]
  | succ t ih =>
      have half : i / 2 < 2 ^ t := by
        rw [pow_succ] at small
        omega
      rw [reverseDigits_succ, ih half, reverseDigits_succ t i, pow_succ]
      ring

/-- Further leading digits shift the reversal. -/
theorem reverseDigits_add {t i : Nat} (small : i < 2 ^ t) (u : Nat)
    : reverseDigits (t + u) i = reverseDigits t i * 2 ^ u := by
  induction u with
  | zero => simp
  | succ u ih =>
      have wide : i < 2 ^ (t + u) := small.trans_le (Nat.pow_le_pow_right (by omega) (by omega))
      rw [← Nat.add_assoc, reverseDigits_succ_of_lt wide, ih, pow_succ]
      ring

/-- Reversing an even number of one digit more. -/
theorem reverseDigits_two_mul (t i : Nat)
    : reverseDigits (t + 1) (2 * i) = reverseDigits t i := by
  simp [reverseDigits_succ]

/-- Reversing an odd number of one digit more. -/
theorem reverseDigits_two_mul_add_one (t i : Nat)
    : reverseDigits (t + 1) (2 * i + 1) = 2 ^ t + reverseDigits t i := by
  have half : (2 * i + 1) / 2 = i := by omega
  rw [reverseDigits_succ, Nat.mul_add_mod, half]
  simp

/-- The binary digits in reverse, digit by digit, by induction on their number. -/
theorem testBit_reverseDigits {t b : Nat} (i : Nat) (h : b < t)
    : (reverseDigits t i).testBit b = i.testBit (t - 1 - b) := by
  induction t generalizing i with
  | zero => omega
  | succ t ih =>
      rw [reverseDigits_succ, mul_comm, Nat.testBit_two_pow_mul_add _ (reverseDigits_lt t _)]
      rcases Nat.lt_or_ge b t with lower | top
      · have next : t + 1 - 1 - b = t - 1 - b + 1 := by omega
        rw [if_pos lower, ih _ lower, Nat.testBit_div_two, next]
      · have last : b = t := by omega
        have first : t + 1 - 1 - b = 0 := by omega
        rw [if_neg (by omega), first, last, Nat.sub_self, Nat.testBit_zero, Nat.testBit_zero,
          Nat.mod_mod]

/-- Reversing twice brings a number of `t` digits back. -/
theorem reverseDigits_reverseDigits {t i : Nat} (small : i < 2 ^ t)
    : reverseDigits t (reverseDigits t i) = i := by
  apply Nat.eq_of_testBit_eq
  intro b
  rcases Nat.lt_or_ge b t with digit | past
  · have position : t - 1 - (t - 1 - b) = b := by omega
    rw [testBit_reverseDigits _ digit, testBit_reverseDigits _ (by omega), position]
  · have bound : 2 ^ t ≤ 2 ^ b := Nat.pow_le_pow_right (by omega) past
    rw [Nat.testBit_lt_two_pow ((reverseDigits_lt t _).trans_le bound),
      Nat.testBit_lt_two_pow (small.trans_le bound)]

-----------------------------------------------------------------------------------------
-- The table
-----------------------------------------------------------------------------------------

/-- The reversal of an index from the reversal of its half, as the table is filled. -/
theorem reverseDigits_step {t i : Nat} (small : i < 2 ^ t)
    : (reverseDigits t (i / 2) ||| i % 2 * 2 ^ t) >>> 1 = reverseDigits t i := by
  cases t with
  | zero =>
      have zero : i = 0 := by simpa using small
      simp [zero]
  | succ t =>
      have half : i / 2 < 2 ^ t := by
        rw [pow_succ] at small
        omega
      rw [reverseDigits_succ_of_lt half, Nat.shiftRight_or_distrib, Nat.shiftRight_one,
        Nat.shiftRight_one, Nat.mul_div_cancel_left _ (by omega), pow_succ, ← mul_assoc,
        Nat.mul_div_cancel _ (by omega), reverseDigits_succ, Nat.or_comm, mul_comm (i % 2),
        ← Nat.two_pow_add_eq_or_of_lt (reverseDigits_lt t _)]

/-- The table up to an index, by induction on the index. -/
private theorem getElem?_reversal {t : Nat} (count : Nat) (within : count ≤ 2 ^ t)
    : (count.fold (fun i _ table =>
          table.push ((table.getD (i / 2) 0 ||| (i % 2) * 2 ^ t) >>> 1)) #[]).size = count
      ∧ ∀ i < count,
          (count.fold (fun i _ table =>
            table.push ((table.getD (i / 2) 0 ||| (i % 2) * 2 ^ t) >>> 1)) #[])[i]?
          = some (reverseDigits t i) := by
  induction count with
  | zero => simp
  | succ count ih =>
      obtain ⟨size, entries⟩ := ih (by omega)
      rw [Nat.fold_succ]
      generalize count.fold _ #[] = table at size entries
      have half : table.getD (count / 2) 0 = reverseDigits t (count / 2) := by
        rcases Nat.eq_zero_or_pos count with zero | positive
        · subst zero
          rw [Array.eq_empty_of_size_eq_zero size, Nat.zero_div, reverseDigits_of_zero]
          rfl
        · rw [Array.getD_eq_getD_getElem?, entries (count / 2) (by omega), Option.getD_some]
      rw [half, reverseDigits_step (by omega)]
      refine ⟨by rw [Array.size_push, size], ?_⟩
      intro i below
      rw [Array.getElem?_push, size]
      split
      · rename_i last
        rw [last]
      · exact entries i (by omega)

theorem size_bitReversal (t : Nat) : (bitReversal (2 ^ t)).size = 2 ^ t :=
  (getElem?_reversal (2 ^ t) (Nat.le_refl _)).1

/-- The table holds the reversed digits of each index. -/
theorem getElem?_bitReversal {t i : Nat} (h : i < 2 ^ t)
    : (bitReversal (2 ^ t))[i]? = some (reverseDigits t i) :=
  (getElem?_reversal (2 ^ t) (Nat.le_refl _)).2 i h

end FastAlgebra
