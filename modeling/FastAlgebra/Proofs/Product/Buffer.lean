import Mathlib
import FastAlgebra.Product.Buffer
import FastAlgebra.Proofs.Product

/-! Products on a buffer are the products. The buffer has room for every partial product at its
place, for operands of any lengths and however they are halved, so nothing is dropped at its end.
-/

namespace FastAlgebra

open CoeffList Polynomial

variable {R : Type} [CommRing R]

theorem addWithin_eq {a b : List R} {offset : Nat} (fits : offset + b.length ≤ a.length)
    : addWithin a offset b = some (addAt a offset b) :=
  if_pos fits

theorem subWithin_eq {a b : List R} (fits : b.length ≤ a.length) : subWithin a b = some (sub a b) :=
  if_pos fits

theorem length_blankProduct (a b : List R) : (blankProduct a b).length = a.length + b.length - 1 :=
  List.length_replicate

theorem blankProduct_comm (a b : List R) : blankProduct a b = blankProduct b a := by
  rw [blankProduct, blankProduct, Nat.add_comm]

-----------------------------------------------------------------------------------------
-- The product by the definition
-----------------------------------------------------------------------------------------

variable [DecidableEq R]

/-- Every row has a place in the buffer, and leaving out the rows of zeros changes nothing, by
induction on the rows.
-/
theorem exists_addRows_eq {buffer a b : List R} {offset : Nat}
    (fits : offset + a.length + b.length ≤ buffer.length + 1)
    : ∃ c, addRows buffer offset a b = some c
        ∧ c.length = buffer.length
        ∧ toPolynomial c
          = toPolynomial buffer + X ^ offset * (toPolynomial a * toPolynomial b) := by
  induction a generalizing buffer offset with
  | nil => exact ⟨buffer, rfl, rfl, by simp⟩
  | cons x rest ih =>
      rw [List.length_cons] at fits
      obtain ⟨next, row, same, added⟩
          : ∃ next,
              (if x = 0 then some buffer else addWithin buffer offset (b.map (x * ·))) = some next
              ∧ next.length = buffer.length
              ∧ toPolynomial next
                = toPolynomial buffer + X ^ offset * (C x * toPolynomial b) := by
        by_cases zero : x = 0
        · exact ⟨buffer, if_pos zero, rfl, by simp [zero]⟩
        · have place : offset + (b.map (x * ·)).length ≤ buffer.length := by
            rw [List.length_map]
            omega
          refine ⟨_, (if_neg zero).trans (addWithin_eq place), length_addAt _ _ _, ?_⟩
          rw [toPolynomial_addAt place, toPolynomial_map_mul_left]
      have place : offset + 1 + rest.length + b.length ≤ next.length + 1 := by omega
      obtain ⟨c, found, length, product⟩ := ih place
      refine ⟨c, ?_, length.trans same, ?_⟩
      · rw [addRows, row]
        exact found
      · rw [product, added, toPolynomial]
        ring

theorem schoolbookOnBuffer_eq (a b : List R) : schoolbookOnBuffer a b = some (schoolbook a b) := by
  rw [schoolbookOnBuffer]
  by_cases empty : a = [] ∨ b = []
  · rw [if_pos ((isEmpty_or_isEmpty_iff a b).mpr empty), schoolbook_eq_nil empty]
  · obtain ⟨left, right⟩ := not_or.mp empty
    rw [if_neg (not_isEmpty_or_isEmpty left right)]
    have place : 0 + a.length + b.length ≤ (blankProduct a b).length + 1 := by
      rw [length_blankProduct]
      omega
    obtain ⟨c, found, length, product⟩ := exists_addRows_eq place
    rw [found, eq_schoolbook left right (length.trans (length_blankProduct a b))]
    rw [product, blankProduct, toPolynomial_replicate_zero]
    ring

-----------------------------------------------------------------------------------------
-- Karatsuba's product
-----------------------------------------------------------------------------------------

omit [DecidableEq R] in
/-- The two products of the long operand's halves have a place. -/
theorem addWithin_unbalanced {long short : List R} {half : Nat} (low : 0 < half)
    (cut : half < long.length) (nonempty : short ≠ [])
    : (do
        let buffer ← addWithin (blankProduct long short) 0 (schoolbook (long.take half) short)
        addWithin buffer half (schoolbook (long.drop half) short))
      = some (schoolbook long short) := by
  have front := length_schoolbook_le (long.take half) short
  have back := length_schoolbook_le (long.drop half) short
  rw [List.length_take_of_le cut.le] at front
  rw [List.length_drop] at back
  rw [addWithin_eq (by rw [length_blankProduct]; omega), Option.bind_eq_bind, Option.bind_some,
    addWithin_eq (by rw [length_addAt, length_blankProduct]; omega)]
  exact congrArg some (addAt_unbalanced low cut nonempty)

omit [DecidableEq R] in
/-- The low, the middle and the high product have a place, the middle one ending where the buffer
does if the operands are as short as they can be.
-/
theorem addWithin_balanced {a b : List R} {half : Nat} (low : 0 < half) (cutA : half < a.length)
    (cutB : half < b.length) (coverA : a.length ≤ 2 * half) (coverB : b.length ≤ 2 * half)
    (room : 3 * half ≤ a.length + b.length)
    : (do
        let withoutLow ← subWithin
          (schoolbook (add (a.take half) (a.drop half)) (add (b.take half) (b.drop half)))
          (schoolbook (a.take half) (b.take half))
        let middle ← subWithin withoutLow (schoolbook (a.drop half) (b.drop half))
        let first ← addWithin (blankProduct a b) 0 (schoolbook (a.take half) (b.take half))
        let second ← addWithin first half middle
        addWithin second (2 * half) (schoolbook (a.drop half) (b.drop half)))
      = some (schoolbook a b) := by
  have lowBound := length_schoolbook_take_le cutA.le cutB.le
  have wholeLength := length_schoolbook_sums low cutA.le cutB.le coverA coverB
  have middleLength := length_middle low cutA.le cutB.le coverA coverB
  have highBound := length_schoolbook_drop_le a b half
  rw [subWithin_eq (by omega), Option.bind_eq_bind, Option.bind_some,
    subWithin_eq (by rw [length_sub]; omega), Option.bind_some,
    addWithin_eq (by rw [length_blankProduct]; omega), Option.bind_some,
    addWithin_eq (by rw [length_addAt, length_blankProduct]; omega), Option.bind_some,
    addWithin_eq (by rw [length_addAt, length_addAt, length_blankProduct]; omega)]
  exact congrArg some (addAt_balanced low cutA cutB coverA coverB room)

/-- The product on a buffer is the product by the definition, by induction on the recursion. -/
theorem karatsubaOnBuffer_eq (a b : List R) : karatsubaOnBuffer a b = some (schoolbook a b) := by
  induction a, b using karatsubaOnBuffer.induct with
  | case1 a b empty =>
      rw [karatsubaOnBuffer, if_pos empty,
        schoolbook_eq_nil ((isEmpty_or_isEmpty_iff a b).mp empty)]
  | case2 a b some short => rw [karatsubaOnBuffer, if_neg some, if_pos short, schoolbookOnBuffer_eq]
  | case3 a b some long half unbalanced longer shorter lowIH highIH =>
      have enough : ¬ min a.length b.length < 32 := long
      have atHalf : half = (max a.length b.length + 1) / 2 := rfl
      rw [karatsubaOnBuffer, if_neg some, if_neg long]
      by_cases order : b.length ≤ a.length
      · have first : longer = a := dif_pos order
        have second : shorter = b := dif_pos order
        have cut : half < a.length := by omega
        rw [first, second] at lowIH highIH
        simp only [← atHalf, if_pos unbalanced, if_pos order, lowIH, highIH,
          List.length_take_of_le cut.le]
        exact addWithin_unbalanced (by omega) cut (List.ne_nil_of_length_pos (by omega))
      · have first : longer = b := dif_neg order
        have second : shorter = a := dif_neg order
        have cut : half < b.length := by omega
        rw [first, second] at lowIH highIH
        simp only [← atHalf, if_pos unbalanced, if_neg order, lowIH, highIH,
          List.length_take_of_le cut.le]
        rw [blankProduct_comm a b, schoolbook_comm a b]
        exact addWithin_unbalanced (by omega) cut (List.ne_nil_of_length_pos (by omega))
  | case4 a b some long half balanced lowIH highIH wholeIH =>
      have enough : ¬ min a.length b.length < 32 := long
      have atHalf : half = (max a.length b.length + 1) / 2 := rfl
      rw [karatsubaOnBuffer, if_neg some, if_neg long]
      simp only [← atHalf, if_neg balanced, lowIH, highIH, wholeIH]
      exact addWithin_balanced (by omega) (by omega) (by omega) (by omega) (by omega) (by omega)

/-- Over every commutative ring and for operands of any lengths, Karatsuba's product is the product
by the definition: it is empty where an operand is, else it has one coefficient less than both
operands together, and each coefficient is the sum of the products whose degrees add up to its own.
On a buffer both algorithms come to the same list, so no partial product loses a coefficient at the
end.
-/
theorem karatsuba_cauchy_exact {R : Type} [CommRing R] [DecidableEq R] (a b : List R)
    : karatsuba a b = schoolbook a b
      ∧ karatsubaOnBuffer a b = some (karatsuba a b)
      ∧ schoolbookOnBuffer a b = some (schoolbook a b)
      ∧ (karatsuba a b).length = (if a = [] ∨ b = [] then 0 else a.length + b.length - 1)
      ∧ ∀ k, coeff (karatsuba a b) k
          = ∑ i ∈ Finset.range (k + 1), coeff a i * coeff b (k - i) := by
  rw [karatsuba_eq_schoolbook]
  refine ⟨rfl, karatsubaOnBuffer_eq a b, schoolbookOnBuffer_eq a b, ?_, coeff_schoolbook a b⟩
  split
  · rename_i empty
    rw [schoolbook_eq_nil empty, List.length_nil]
  · rename_i some
    obtain ⟨left, right⟩ := not_or.mp some
    exact length_schoolbook left right

end FastAlgebra
