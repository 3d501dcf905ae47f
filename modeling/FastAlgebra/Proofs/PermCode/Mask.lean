import Mathlib
import FastAlgebra.PermCode.Mask
import FastAlgebra.Proofs.PermCode.Words

/-! Codes by masks are the codes by lists. The mask of a run holds exactly the values that the list
holds at the same position, so counting the bits above an entry counts its inversions, and the
highest bits are the first values in descending order. No operation on the way leaves the word.
-/

namespace FastAlgebra.PermCode

/-- The mask holds exactly the values, which are different. -/
structure Holds (mask : UInt64) (values : List Nat) : Prop where
  nodup : values.Nodup
  testBit_iff : ∀ i, mask.toNat.testBit i = true ↔ i ∈ values

theorem within_eq {result : UInt64} {number : Nat} (exact : result.toNat = number)
    : within result number = .ok result :=
  if_pos exact

-----------------------------------------------------------------------------------------
-- Single bits
-----------------------------------------------------------------------------------------

/-- Values below 64 have a bit. -/
theorem exists_maskBit_eq {value : Nat} (small : value < 64)
    : ∃ bit, maskBit value = .ok bit ∧ bit.toNat = 2 ^ value := by
  refine ⟨_, if_pos small, ?_⟩
  have amount : (UInt64.ofNat value).toNat = value :=
    UInt64.toNat_ofNat_of_lt' (by simp only [UInt64.size]; omega)
  have fits : 2 ^ value < 2 ^ 64 := Nat.pow_lt_pow_right (by omega) small
  rw [UInt64.toNat_shiftLeft, amount, Nat.mod_eq_of_lt small, UInt64.toNat_one, Nat.one_shiftLeft,
    Nat.mod_eq_of_lt fits]

theorem testBit_toNat_not (mask : UInt64) (i : Nat)
    : (~~~mask).toNat.testBit i = (decide (i < 64) && !mask.toNat.testBit i) := by
  rw [UInt64.toNat_not, Nat.sub_sub, Nat.add_comm 1]
  exact Nat.testBit_two_pow_sub_succ mask.toNat_lt i

/-- Negating a bit sets all bits from it on. -/
theorem testBit_toNat_neg {bit : UInt64} {value : Nat} (single : bit.toNat = 2 ^ value)
    (small : value < 64) (i : Nat)
    : (0 - bit).toNat.testBit i = (decide (i < 64) && decide (value ≤ i)) := by
  have positive : 0 < 2 ^ value := Nat.two_pow_pos value
  have fits : 2 ^ value < 2 ^ 64 := Nat.pow_lt_pow_right (by omega) small
  have negated : (0 - bit).toNat = 2 ^ 64 - (2 ^ value - 1 + 1) := by
    rw [UInt64.toNat_sub, single, UInt64.toNat_zero, Nat.add_zero, Nat.sub_add_cancel positive]
    exact Nat.mod_eq_of_lt (by omega)
  rw [negated, Nat.testBit_two_pow_sub_succ (by omega), Nat.testBit_two_pow_sub_one, ← decide_not,
    decide_eq_decide.mpr Nat.not_lt]

namespace Holds

variable {mask bit : UInt64} {values : List Nat} {value : Nat}

theorem empty : Holds 0 [] :=
  ⟨.nil, by simp⟩

/-- A value is in the mask if its bit is. -/
theorem and_bit_ne_zero_iff (holds : Holds mask values) (single : bit.toNat = 2 ^ value)
    : mask &&& bit ≠ 0 ↔ value ∈ values := by
  rw [← holds.testBit_iff, Ne, ← UInt64.toNat_inj, UInt64.toNat_and, single, UInt64.toNat_zero,
    Nat.and_two_pow]
  cases mask.toNat.testBit value <;> simp

theorem insert (holds : Holds mask values) (single : bit.toNat = 2 ^ value) (new : value ∉ values)
    : Holds (mask ||| bit) (value :: values) := by
  refine ⟨List.nodup_cons.mpr ⟨new, holds.nodup⟩, ?_⟩
  intro i
  rw [UInt64.toNat_or, Nat.testBit_or, single, Nat.testBit_two_pow, Bool.or_eq_true,
    holds.testBit_iff, decide_eq_true_eq, List.mem_cons, eq_comm, or_comm]

theorem lt (holds : Holds mask values) (member : value ∈ values) : value < 64 := by
  by_contra large
  have absent := Nat.testBit_lt_two_pow
    (mask.toNat_lt.trans_le (Nat.pow_le_pow_right (by omega) (Nat.le_of_not_lt large)))
  rw [(holds.testBit_iff value).mpr member] at absent
  exact Bool.noConfusion absent

theorem erase (holds : Holds mask values) (single : bit.toNat = 2 ^ value)
    : Holds (mask &&& ~~~bit) (values.erase value) := by
  refine ⟨holds.nodup.erase value, ?_⟩
  intro i
  rw [UInt64.toNat_and, Nat.testBit_and, testBit_toNat_not, single, Nat.testBit_two_pow,
    Bool.and_eq_true, holds.testBit_iff, holds.nodup.mem_erase_iff]
  rw [Bool.and_eq_true, ← decide_not, decide_eq_true_eq, decide_eq_true_eq, ne_comm]
  constructor
  · rintro ⟨member, _, other⟩
    exact ⟨other, member⟩
  · rintro ⟨other, member⟩
    exact ⟨member, holds.lt member, other⟩

-----------------------------------------------------------------------------------------
-- Counting and choosing
-----------------------------------------------------------------------------------------

/-- The values from a new one on are the greater ones. -/
theorem popCount_eq (holds : Holds mask values) (single : bit.toNat = 2 ^ value)
    (small : value < 64) (new : value ∉ values)
    : popCount (mask &&& (0 - bit)) = values.countP (value < ·) := by
  rw [popCount, List.countP_eq_length_filter, List.countP_eq_length_filter]
  apply List.Perm.length_eq
  rw [List.perm_ext_iff_of_nodup (List.nodup_range.filter _) (holds.nodup.filter _)]
  intro i
  rw [List.mem_filter, List.mem_filter, List.mem_range, UInt64.toNat_and, Nat.testBit_and,
    testBit_toNat_neg single small, Bool.and_eq_true, Bool.and_eq_true, holds.testBit_iff,
    decide_eq_true_eq, decide_eq_true_eq, decide_eq_true_eq]
  constructor
  · rintro ⟨_, member, _, reached⟩
    exact ⟨member, Nat.lt_of_le_of_ne reached fun same => new (same ▸ member)⟩
  · rintro ⟨member, greater⟩
    exact ⟨holds.lt member, member, holds.lt member, greater.le⟩

/-- In descending order the first value is the highest bit. -/
theorem greatest_eq {rest : List Nat} (holds : Holds mask (value :: rest))
    (descending : (value :: rest).Pairwise (· > ·))
    : greatest mask = .ok value := by
  have small := holds.lt List.mem_cons_self
  have set := (holds.testBit_iff value).mpr List.mem_cons_self
  have nonzero : mask ≠ 0 := by
    rintro rfl
    simp at set
  have top : mask.toNat.log2 = value := by
    rw [Nat.log2_eq_iff fun zero => nonzero (UInt64.toNat_inj.mp zero)]
    refine ⟨Nat.ge_two_pow_of_testBit set, Nat.lt_pow_two_of_testBit _ ?_⟩
    intro i above
    rw [Bool.eq_false_iff, Ne, holds.testBit_iff, List.mem_cons, not_or]
    exact ⟨by omega, fun member => by have := List.rel_of_pairwise_cons descending member; omega⟩
  have zeros : leadingZeros mask = 63 - value := by rw [leadingZeros, if_neg nonzero, top]
  rw [greatest, zeros, if_pos (by omega)]
  congr 1
  omega

/-- Putting the greatest values aside drops the first ones, by induction on their number. -/
theorem exists_withoutGreatest_eq (holds : Holds mask values) (descending : values.Pairwise (· > ·))
    {count : Nat} (enough : count ≤ values.length)
    : ∃ others, withoutGreatest count mask = .ok others ∧ Holds others (values.drop count) := by
  induction count generalizing mask values with
  | zero => exact ⟨mask, rfl, holds⟩
  | succ count ih =>
      cases values with
      | nil => exact absurd enough (Nat.not_succ_le_zero _)
      | cons first rest =>
          obtain ⟨bit, made, single⟩ := exists_maskBit_eq (holds.lt List.mem_cons_self)
          have erased := holds.erase single
          rw [List.erase_cons_head] at erased
          obtain ⟨others, found, kept⟩ := ih erased (List.pairwise_cons.mp descending).2
            (Nat.le_of_succ_le_succ enough)
          refine ⟨others, ?_, kept⟩
          rw [withoutGreatest, holds.greatest_eq descending]
          simp only [bind, Except.bind, made]
          exact found

/-- Erasing a value erases its position. -/
theorem eraseIdx (holds : Holds mask values) {digit : Nat} (inside : digit < values.length)
    (single : bit.toNat = 2 ^ values[digit])
    : Holds (mask &&& ~~~bit) (values.eraseIdx digit) := by
  rw [← holds.nodup.erase_getElem digit inside]
  exact holds.erase single

end Holds

/-- The predecessor of a bit is the mask of all values below it. -/
theorem exists_all_eq {bit : UInt64} {length : Nat} (single : bit.toNat = 2 ^ length)
    : ∃ all, within (bit - 1) (bit.toNat - 1) = .ok all
        ∧ Holds all (List.range length).reverse := by
  have positive : 1 ≤ bit := by
    rw [UInt64.le_iff_toNat_le, single]
    exact Nat.one_le_two_pow
  have exact : (bit - 1).toNat = bit.toNat - 1 := UInt64.toNat_sub_of_le _ _ positive
  refine ⟨bit - 1, within_eq exact, List.nodup_reverse.mpr List.nodup_range, ?_⟩
  intro i
  rw [exact, single, Nat.testBit_two_pow_sub_one, decide_eq_true_eq, List.mem_reverse,
    List.mem_range]

-----------------------------------------------------------------------------------------
-- Encoding and decoding
-----------------------------------------------------------------------------------------

/-- The mask follows the entries seen so far, by induction on the entries to come. The bound on the
code keeps its product and its sum within the word.
-/
theorem encodeMask_eq {length : Nat} (small : length ≤ maxLength) {mask code : UInt64}
    {seen rest : List Nat} (holds : Holds mask seen) (bound : code.toNat < seen.length.factorial)
    (total : seen.length + rest.length = length)
    : encodeMask length mask code seen.length rest
      = (encodeFrom length seen code rest).mapError .refused := by
  induction rest generalizing mask code seen with
  | nil => rfl
  | cons value rest ih =>
      rw [List.length_cons] at total
      have position : seen.length < maxLength := by omega
      rw [encodeMask, encodeFrom]
      by_cases outside : length ≤ value
      · rw [if_pos outside, if_pos outside]
        rfl
      have below : value < 64 := by
        have most : length ≤ 20 := small
        omega
      obtain ⟨bit, made, single⟩ := exists_maskBit_eq below
      rw [if_neg outside, if_neg outside, made]
      by_cases repeated : value ∈ seen
      · simp only [bind, Except.bind, if_pos repeated,
          if_pos ((holds.and_bit_ne_zero_iff single).mpr repeated)]
        rfl
      have least : seen.countP (value < ·) ≤ seen.length := List.countP_le_length
      have radix := toNat_radix position
      have digit := toNat_digit position least
      have fits := append_digit_lt_size position bound least
      have product : (code * UInt64.ofNat (seen.length + 1)).toNat
          = code.toNat * (UInt64.ofNat (seen.length + 1)).toNat := by
        rw [UInt64.toNat_mul, Nat.mod_eq_of_lt]
        rw [radix]
        exact (Nat.le_add_right _ _).trans_lt fits
      have sum := toNat_append_digit position bound least
      have next := append_digit_lt bound least
      simp only [bind, Except.bind, if_neg repeated,
        if_neg (mt (holds.and_bit_ne_zero_iff single).mp repeated),
        holds.popCount_eq single below repeated, within_eq product]
      rw [within_eq (by rw [sum, product, radix, digit])]
      exact ih (holds.insert single repeated) (sum ▸ next) (by rw [List.length_cons]; omega)

/-- The mask follows the values that are left, by induction on the digits. -/
theorem placeMask_eq {mask : UInt64} {left digits : List Nat} (holds : Holds mask left)
    (descending : left.Pairwise (· > ·)) (length : left.length = digits.length)
    (h : AreDigits digits) (placed : List Nat)
    : placeMask mask placed digits = .ok (place left placed digits) := by
  induction digits generalizing mask left placed with
  | nil => rfl
  | cons digit rest ih =>
      obtain ⟨inside, shorter⟩ := lt_length_and_length_eraseIdx length h
      obtain ⟨others, found, kept⟩ := holds.exists_withoutGreatest_eq descending inside.le
      have sorted := descending.sublist (List.drop_sublist digit left)
      rw [List.drop_eq_getElem_cons inside] at kept sorted
      obtain ⟨bit, made, single⟩ := exists_maskBit_eq (holds.lt (List.getElem_mem inside))
      rw [placeMask, place, List.getD_eq_getElem _ _ inside, found]
      simp only [bind, Except.bind, kept.greatest_eq sorted, made]
      exact ih (holds.eraseIdx inside single)
        (descending.sublist (List.eraseIdx_sublist left digit)) shorter h.2 _

/-- Every list is encoded by masks as it is by lists, or refused for the same reason. -/
theorem encodeByMask_eq (perm : List Nat)
    : encodeByMask perm = (encode perm).mapError .refused := by
  rw [encodeByMask, encode]
  by_cases long : maxLength < perm.length
  · rw [if_pos long, if_pos long]
    rfl
  · rw [if_neg long, if_neg long]
    exact encodeMask_eq (Nat.le_of_not_lt long) Holds.empty Nat.one_pos (Nat.zero_add _)

/-- Every number is decoded by masks as it is by lists, or refused for the same reason. -/
theorem decodeByMask_eq (code : UInt64) (length : Nat)
    : decodeByMask code length = (decode code length).mapError .refused := by
  rw [decodeByMask, decode]
  by_cases long : maxLength < length
  · rw [if_pos long, if_pos long]
    rfl
  have small : length ≤ 20 := Nat.le_of_not_lt long
  obtain ⟨count, areDigits, _⟩ := digits_spec small code
  rw [if_neg long, if_neg long]
  by_cases none : (digits code length).2 = 0
  · have below : length < 64 := by omega
    obtain ⟨bit, made, single⟩ := exists_maskBit_eq below
    obtain ⟨all, exact, holds⟩ := exists_all_eq single
    simp only [none, ne_eq, not_true_eq_false, if_false, made, exact, bind, Except.bind]
    refine placeMask_eq holds (descending_range length) ?_ areDigits []
    rw [List.length_reverse, List.length_range, count]
  · simp only [ne_eq, none, not_false_eq_true, if_true]
    rfl

-----------------------------------------------------------------------------------------
-- The bijection
-----------------------------------------------------------------------------------------

/-- Up to the longest length encoding and decoding undo each other between the permutations and the
numbers below the factorial. A code counts the inversions in mixed radix. Masks give the same
results, so nothing leaves the word.
-/
theorem encode_decode_exact {n : Nat} (small : n ≤ maxLength)
    : (∀ perm : List Nat, perm.Perm (List.range n) →
        ∃ code,
          encode perm = .ok code
          ∧ encodeByMask perm = .ok code
          ∧ code.toNat < n.factorial
          ∧ code.toNat
            = ∑ i ∈ Finset.range n, earlierGreater perm i * (n.factorial / (i + 1).factorial)
          ∧ decode code n = .ok perm
          ∧ decodeByMask code n = .ok perm)
      ∧ ∀ code : UInt64, code.toNat < n.factorial →
        ∃ perm : List Nat,
          decode code n = .ok perm
          ∧ decodeByMask code n = .ok perm
          ∧ perm.Perm (List.range n)
          ∧ encode perm = .ok code
          ∧ encodeByMask perm = .ok code := by
  constructor
  · intro perm permutes
    obtain ⟨code, encoded, value, below⟩ := exists_encode_eq small permutes
    have length : perm.length = n := permutes.length_eq.trans List.length_range
    have decoded := decode_of_encode small permutes value below
    refine ⟨code, encoded, ?_, below, ?_, decoded, ?_⟩
    · rw [encodeByMask_eq, encoded]
      rfl
    · rw [value, digitValue_inversions, length]
    · rw [decodeByMask_eq, decoded]
      rfl
  · intro code below
    obtain ⟨perm, decoded, permutes, encoded⟩ := encode_of_decode small below
    refine ⟨perm, decoded, ?_, permutes, encoded, ?_⟩
    · rw [decodeByMask_eq, decoded]
      rfl
    · rw [encodeByMask_eq, encoded]
      rfl

theorem encode_decode_exact_three
    : (3 : Nat) ≤ maxLength
      ∧ (∃ code, encode [2, 0, 1] = .ok code ∧ code.toNat = 4 ∧ decode code 3 = .ok [2, 0, 1])
      ∧ ∃ perm, decode 5 3 = .ok perm ∧ encodeByMask perm = .ok 5 := by
  have small : (3 : Nat) ≤ maxLength := by decide
  obtain ⟨code, encoded, _, _, value, decoded, _⟩ :=
    (encode_decode_exact small).1 [2, 0, 1] (by decide)
  obtain ⟨perm, found, _, _, _, again⟩ := (encode_decode_exact small).2 5 (by decide)
  exact ⟨small, ⟨code, encoded, value.trans (by decide), decoded⟩, perm, found, again⟩

end FastAlgebra.PermCode
