import Mathlib
import FastAlgebra.Proofs.PermCode.Inversions

/-! Codes of permutations as words. Up to the longest length the digits never leave the word, so a
code is the number of the digits, and dividing by the radices takes the digits off again.
-/

namespace FastAlgebra.PermCode

/-- The codes of the longest permutations fit into a word. -/
theorem factorial_lt_size {n : Nat} (small : n ≤ maxLength) : n.factorial < UInt64.size :=
  (Nat.factorial_le small).trans_lt (by decide)

theorem toNat_radix {position : Nat} (small : position < maxLength)
    : (UInt64.ofNat (position + 1)).toNat = position + 1 :=
  UInt64.toNat_ofNat_of_lt' (by
    have bound : position < 20 := small
    simp only [UInt64.size]
    omega)

theorem toNat_digit {position digit : Nat} (small : position < maxLength) (below : digit ≤ position)
    : (UInt64.ofNat digit).toNat = digit :=
  UInt64.toNat_ofNat_of_lt' (by
    have bound : position < 20 := small
    simp only [UInt64.size]
    omega)

/-- Neither the product with the radix nor the sum with the digit leaves the word. -/
theorem append_digit_lt_size {code : UInt64} {position digit : Nat} (small : position < maxLength)
    (bound : code.toNat < position.factorial) (below : digit ≤ position)
    : code.toNat * (position + 1) + digit < UInt64.size :=
  (append_digit_lt bound below).trans (factorial_lt_size small)

theorem toNat_append_digit {code : UInt64} {position digit : Nat} (small : position < maxLength)
    (bound : code.toNat < position.factorial) (below : digit ≤ position)
    : (code * UInt64.ofNat (position + 1) + UInt64.ofNat digit).toNat
      = code.toNat * (position + 1) + digit := by
  have fits := append_digit_lt_size small bound below
  rw [UInt64.toNat_add, UInt64.toNat_mul, toNat_radix small, toNat_digit small below,
    Nat.mod_add_mod, Nat.mod_eq_of_lt fits]

-----------------------------------------------------------------------------------------
-- Encoding
-----------------------------------------------------------------------------------------

/-- Different values below the length are encoded by the inversions of all entries, by induction on
the entries to come.
-/
theorem exists_encodeFrom_eq {length : Nat} (small : length ≤ maxLength) {seen rest : List Nat}
    {code : UInt64} (nodup : (rest.reverse ++ seen).Nodup)
    (total : seen.length + rest.length = length) (below : ∀ value ∈ rest, value < length)
    (value : code.toNat = digitValue (inversions seen))
    : ∃ result, encodeFrom length seen code rest = .ok result
        ∧ result.toNat = digitValue (inversions (rest.reverse ++ seen)) := by
  induction rest generalizing seen code with
  | nil => exact ⟨code, rfl, value⟩
  | cons entry rest ih =>
      rw [List.reverse_cons, List.append_assoc, List.singleton_append] at nodup ⊢
      rw [List.length_cons] at total
      have inside : ¬ length ≤ entry := Nat.not_le_of_gt (below entry List.mem_cons_self)
      have new : entry ∉ seen := (List.nodup_cons.mp (List.nodup_append.mp nodup).2.1).1
      have bound : code.toNat < seen.length.factorial := by
        rw [value]
        exact (digitValue_lt (areDigits_inversions seen)).trans_eq (by rw [length_inversions])
      rw [encodeFrom, if_neg inside, if_neg new]
      refine ih nodup (by rw [List.length_cons]; omega)
        (fun value member => below value (List.mem_cons_of_mem _ member)) ?_
      rw [toNat_append_digit (by omega) bound List.countP_le_length, inversions, digitValue,
        length_inversions, value]

/-- A permutation is encoded by the inversions of its entries. -/
theorem exists_encode_eq {n : Nat} (small : n ≤ maxLength) {perm : List Nat}
    (permutes : perm.Perm (List.range n))
    : ∃ code, encode perm = .ok code
        ∧ code.toNat = digitValue (inversions perm.reverse)
        ∧ code.toNat < n.factorial := by
  have length : perm.length = n := permutes.length_eq.trans List.length_range
  obtain ⟨code, encoded, value⟩ := @exists_encodeFrom_eq n small [] perm 0
    (by simpa using permutes.nodup_iff.mpr List.nodup_range) (by simpa)
    (fun value member => List.mem_range.mp (permutes.subset member)) rfl
  rw [List.append_nil] at value
  refine ⟨code, ?_, value, ?_⟩
  · rw [encode, if_neg (by omega), length, encoded]
  · have bound := digitValue_lt (areDigits_inversions perm.reverse)
    rwa [length_inversions, List.length_reverse, length, ← value] at bound

-----------------------------------------------------------------------------------------
-- Decoding
-----------------------------------------------------------------------------------------

/-- Dividing by the radices splits a word into digits and what is left, by induction on the length.
-/
theorem digits_spec {length : Nat} (small : length ≤ maxLength) (code : UInt64)
    : (digits code length).1.length = length
      ∧ AreDigits (digits code length).1
      ∧ code.toNat
        = (digits code length).2.toNat * length.factorial + digitValue (digits code length).1 := by
  induction length generalizing code with
  | zero => exact ⟨rfl, trivial, by simp [digits, digitValue]⟩
  | succ length ih =>
      have radix := toNat_radix small
      obtain ⟨count, earlier, value⟩ :=
        ih (Nat.le_of_succ_le small) (code / UInt64.ofNat (length + 1))
      have digit : (code % UInt64.ofNat (length + 1)).toNat ≤ length := by
        rw [UInt64.toNat_mod, radix]
        exact Nat.le_of_lt_succ (Nat.mod_lt _ (Nat.succ_pos length))
      rw [UInt64.toNat_div, radix] at value
      simp only [digits]
      refine ⟨by rw [List.length_cons, count], ⟨count.symm ▸ digit, earlier⟩, ?_⟩
      rw [digitValue, count, UInt64.toNat_mod, radix, Nat.factorial_succ,
        ← Nat.div_add_mod code.toNat (length + 1)]
      simp only [Nat.mul_add_mod, Nat.mod_mod]
      rw [value]
      ring

/-- The digits of a number are unique, by induction on the digits. -/
theorem digitValue_injective {first second : List Nat} (left : AreDigits first)
    (right : AreDigits second) (length : first.length = second.length)
    (value : digitValue first = digitValue second)
    : first = second := by
  induction first generalizing second with
  | nil => exact (List.length_eq_zero_iff.mp length.symm).symm
  | cons digit earlier ih =>
      cases second with
      | nil => exact nomatch length
      | cons other rest =>
          have shorter : earlier.length = rest.length := Nat.succ.inj length
          have inside : digit < earlier.length + 1 := Nat.lt_succ_of_le left.1
          have within : other < earlier.length + 1 := shorter ▸ Nat.lt_succ_of_le right.1
          rw [digitValue, digitValue, ← shorter] at value
          have same : digit = other := by
            have units := congrArg (· % (earlier.length + 1)) value
            simp only [Nat.mul_add_mod'] at units
            rwa [Nat.mod_eq_of_lt inside, Nat.mod_eq_of_lt within] at units
          have higher : digitValue earlier = digitValue rest := by
            rw [same, Nat.add_right_cancel_iff] at value
            exact Nat.eq_of_mul_eq_mul_right (Nat.succ_pos _) value
          rw [same, ih left.2 right.2 shorter higher]

/-- The number of some digits is split into them, with nothing left. -/
theorem digits_eq {digits : List Nat} (h : AreDigits digits) (small : digits.length ≤ maxLength)
    {code : UInt64} (value : code.toNat = digitValue digits)
    : PermCode.digits code digits.length = (digits, 0) := by
  obtain ⟨length, areDigits, split⟩ := digits_spec small code
  have bound : code.toNat < digits.length.factorial := value ▸ digitValue_lt h
  have none : (PermCode.digits code digits.length).2.toNat = 0 := by
    by_contra some
    have reached := Nat.le_mul_of_pos_left digits.length.factorial (Nat.pos_of_ne_zero some)
    omega
  rw [none, Nat.zero_mul, Nat.zero_add, value] at split
  exact Prod.ext (digitValue_injective areDigits h length split.symm) (UInt64.toNat_inj.mp none)

/-- A code below the factorial leaves nothing. -/
theorem digits_snd_eq_zero_iff {n : Nat} (small : n ≤ maxLength) (code : UInt64)
    : (digits code n).2 = 0 ↔ code.toNat < n.factorial := by
  obtain ⟨length, areDigits, split⟩ := digits_spec small code
  have bound := digitValue_lt areDigits
  rw [length] at bound
  constructor
  · intro none
    rw [none, UInt64.toNat_zero, Nat.zero_mul, Nat.zero_add] at split
    exact split ▸ bound
  · intro within
    by_contra some
    have positive : 0 < (digits code n).2.toNat :=
      Nat.pos_of_ne_zero fun none => some (UInt64.toNat_inj.mp none)
    have reached := Nat.le_mul_of_pos_left n.factorial positive
    omega

/-- The values below a length in descending order, in which they are chosen. -/
theorem descending_range (n : Nat) : (List.range n).reverse.Pairwise (· > ·) :=
  List.pairwise_reverse.mpr List.pairwise_lt_range

theorem decode_eq {n : Nat} (small : n ≤ maxLength) {code : UInt64}
    (below : code.toNat < n.factorial)
    : decode code n = .ok (chosen (List.range n).reverse (digits code n).1).reverse := by
  have none := (digits_snd_eq_zero_iff small code).mpr below
  rw [decode, if_neg (Nat.not_lt_of_le small)]
  simp only [none, ne_eq, not_true_eq_false, if_false, place_eq, List.append_nil]

/-- The code of a permutation is decoded to the permutation. -/
theorem decode_of_encode {n : Nat} (small : n ≤ maxLength) {perm : List Nat}
    (permutes : perm.Perm (List.range n)) {code : UInt64}
    (value : code.toNat = digitValue (inversions perm.reverse)) (below : code.toNat < n.factorial)
    : decode code n = .ok perm := by
  have length : (inversions perm.reverse).length = n := by
    rw [length_inversions, List.length_reverse, permutes.length_eq, List.length_range]
  have split := digits_eq (areDigits_inversions perm.reverse) (length.trans_le small) value
  have reversed : perm.reverse.Perm (List.range n).reverse :=
    (List.reverse_perm perm).trans (permutes.trans (List.reverse_perm _).symm)
  rw [length] at split
  rw [decode_eq small below, split, chosen_inversions (descending_range n) reversed,
    List.reverse_reverse]

/-- What a code below the factorial is decoded to is a permutation, and encoded to the code again.
-/
theorem encode_of_decode {n : Nat} (small : n ≤ maxLength) {code : UInt64}
    (below : code.toNat < n.factorial)
    : ∃ perm, decode code n = .ok perm ∧ perm.Perm (List.range n) ∧ encode perm = .ok code := by
  obtain ⟨length, areDigits, split⟩ := digits_spec small code
  have none := (digits_snd_eq_zero_iff small code).mpr below
  have count : (List.range n).reverse.length = (digits code n).1.length := by
    rw [List.length_reverse, List.length_range, length]
  have permutes := ((List.reverse_perm _).trans (perm_chosen count areDigits)).trans
    (List.reverse_perm (List.range n))
  obtain ⟨other, encoded, value, _⟩ := exists_encode_eq small permutes
  rw [List.reverse_reverse, inversions_chosen (descending_range n) count areDigits] at value
  rw [none, UInt64.toNat_zero, Nat.zero_mul, Nat.zero_add, ← value] at split
  exact ⟨_, decode_eq small below, permutes, UInt64.toNat_inj.mp split ▸ encoded⟩

end FastAlgebra.PermCode
