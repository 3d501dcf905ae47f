import Mathlib
import FastAlgebra.Product.Karatsuba
import FastAlgebra.Proofs.CoeffList

/-! Products of coefficient lists. Both algorithms compute the product of polynomials at the same
length, over every commutative ring; hence they return the same list.
-/

namespace FastAlgebra

open CoeffList Polynomial

variable {R : Type} [CommRing R]

-----------------------------------------------------------------------------------------
-- The product by the definition
-----------------------------------------------------------------------------------------

@[simp]
theorem schoolbook_nil_left {S : Type} [Zero S] [Add S] [Mul S] (b : List S)
    : schoolbook [] b = [] :=
  rfl

@[simp]
theorem schoolbook_nil_right {S : Type} [Zero S] [Add S] [Mul S] (a : List S)
    : schoolbook a [] = [] := by
  cases a <;> rfl

/-- One of the operands is empty, as the algorithms test it. -/
theorem isEmpty_or_isEmpty_iff {S : Type} (a b : List S)
    : (a.isEmpty || b.isEmpty) = true ↔ a = [] ∨ b = [] := by
  rw [Bool.or_eq_true, List.isEmpty_iff, List.isEmpty_iff]

theorem not_isEmpty_or_isEmpty {S : Type} {a b : List S} (left : a ≠ []) (right : b ≠ [])
    : ¬ (a.isEmpty || b.isEmpty) = true := by
  rw [isEmpty_or_isEmpty_iff, not_or]
  exact ⟨left, right⟩

theorem schoolbook_eq_nil {S : Type} [Zero S] [Add S] [Mul S] {a b : List S}
    (empty : a = [] ∨ b = [])
    : schoolbook a b = [] := by
  rcases empty with rfl | rfl
  · exact schoolbook_nil_left b
  · exact schoolbook_nil_right a

/-- The rows add up to the product of polynomials, by induction on the rows. -/
@[simp]
theorem toPolynomial_schoolbook (a b : List R)
    : toPolynomial (schoolbook a b) = toPolynomial a * toPolynomial b := by
  induction a with
  | nil => simp
  | cons x a ih =>
      cases b with
      | nil => simp
      | cons y b =>
          rw [schoolbook, toPolynomial_add, toPolynomial_map_mul_left]
          simp only [toPolynomial, ih, C_0]
          ring

/-- The product of two lists that are not empty has one coefficient less than both together. -/
theorem length_schoolbook {a b : List R} (left : a ≠ []) (right : b ≠ [])
    : (schoolbook a b).length = a.length + b.length - 1 := by
  induction a with
  | nil => exact absurd rfl left
  | cons x a ih =>
      cases b with
      | nil => exact absurd rfl right
      | cons y b =>
          cases a with
          | nil => simp [schoolbook]
          | cons z a =>
              have rest := ih (by simp)
              simp only [schoolbook, length_add, List.length_map, List.length_cons] at rest ⊢
              omega

theorem length_schoolbook_le (a b : List R)
    : (schoolbook a b).length ≤ a.length + b.length - 1 := by
  rcases eq_or_ne a [] with rfl | left
  · exact Nat.zero_le _
  rcases eq_or_ne b [] with rfl | right
  · simp
  exact (length_schoolbook left right).le

/-- The product of two lists of one length is at least that long. -/
theorem length_take_schoolbook {a b : List R} {n : Nat} (left : a.length = n) (right : b.length = n)
    : ((schoolbook a b).take n).length = n := by
  rcases Nat.eq_zero_or_pos n with rfl | positive
  · rw [List.take_zero, List.length_nil]
  · have some : a ≠ [] := List.ne_nil_of_length_pos (left ▸ positive)
    have more : b ≠ [] := List.ne_nil_of_length_pos (right ▸ positive)
    rw [List.length_take, length_schoolbook some more]
    omega

theorem degree_mul_toPolynomial_lt (a b : List R)
    : (toPolynomial a * toPolynomial b).degree
      < ((a.length + b.length - 1 : Nat) : WithBot Nat) := by
  rw [← toPolynomial_schoolbook]
  exact (degree_toPolynomial_lt _).trans_le (by exact_mod_cast length_schoolbook_le a b)

/-- The product over a ring. -/
abbrev cauchyProduct (a b : List R) : List R :=
  schoolbook a b

theorem cauchyProduct_eq_nil {a b : List R} (empty : a = [] ∨ b = []) : cauchyProduct a b = [] :=
  schoolbook_eq_nil empty

/-- Each coefficient is the sum of the products of coefficients whose degrees add up to its own.
-/
theorem coeff_schoolbook (a b : List R) (k : Nat)
    : coeff (schoolbook a b) k = ∑ i ∈ Finset.range (k + 1), coeff a i * coeff b (k - i) := by
  rw [← coeff_toPolynomial, toPolynomial_schoolbook, coeff_mul,
    Finset.Nat.sum_antidiagonal_eq_sum_range_succ_mk]
  simp only [coeff_toPolynomial]

-----------------------------------------------------------------------------------------
-- Karatsuba's product
-----------------------------------------------------------------------------------------

/-- A list of the right length that stands for the product is the product by the definition. -/
theorem eq_schoolbook {a b c : List R} (left : a ≠ []) (right : b ≠ [])
    (length : c.length = a.length + b.length - 1)
    (product : toPolynomial c = toPolynomial a * toPolynomial b)
    : c = schoolbook a b :=
  ext_polynomial (by rw [length, length_schoolbook left right])
    (by rw [product, toPolynomial_schoolbook])

/-- The operands can be exchanged. -/
theorem schoolbook_comm (a b : List R) : schoolbook a b = schoolbook b a := by
  rcases eq_or_ne a [] with rfl | left
  · simp
  rcases eq_or_ne b [] with rfl | right
  · simp
  apply eq_schoolbook right left
  · rw [length_schoolbook left right, Nat.add_comm]
  · rw [toPolynomial_schoolbook, mul_comm]

/-- Multiplying the two halves of the long operand by the short one gives the product. The last
products end exactly at the end of the result.
-/
theorem addAt_unbalanced {long short : List R} {half : Nat} (low : 0 < half)
    (cut : half < long.length) (nonempty : short ≠ [])
    : addAt (addAt (List.replicate (long.length + short.length - 1) 0) 0
          (schoolbook (long.take half) short)) half (schoolbook (long.drop half) short)
      = schoolbook long short := by
  have front := length_schoolbook_le (long.take half) short
  have back := length_schoolbook_le (long.drop half) short
  rw [List.length_take_of_le cut.le] at front
  rw [List.length_drop] at back
  apply eq_schoolbook (List.ne_nil_of_length_pos (by omega)) nonempty (by simp)
  rw [toPolynomial_addAt (by rw [length_addAt, List.length_replicate]; omega),
    toPolynomial_addAt (by rw [List.length_replicate]; omega),
    toPolynomial_take_add_drop cut.le]
  simp only [toPolynomial_replicate_zero, toPolynomial_schoolbook]
  ring

section Balanced

variable {a b : List R} {half : Nat}

/-- The sum of the halves is as long as the lower half. -/
theorem length_add_halves (cut : half ≤ a.length) (cover : a.length ≤ 2 * half)
    : (add (a.take half) (a.drop half)).length = half := by
  rw [length_add, List.length_take_of_le cut, List.length_drop, max_eq_left (by omega)]

theorem length_schoolbook_sums (low : 0 < half) (cutA : half ≤ a.length) (cutB : half ≤ b.length)
    (coverA : a.length ≤ 2 * half) (coverB : b.length ≤ 2 * half)
    : (schoolbook (add (a.take half) (a.drop half)) (add (b.take half) (b.drop half))).length
      = half + half - 1 := by
  have sumA := length_add_halves cutA coverA
  have sumB := length_add_halves cutB coverB
  rw [length_schoolbook (List.ne_nil_of_length_pos (by omega))
    (List.ne_nil_of_length_pos (by omega)), sumA, sumB]

theorem length_schoolbook_take_le (cutA : half ≤ a.length) (cutB : half ≤ b.length)
    : (schoolbook (a.take half) (b.take half)).length ≤ half + half - 1 := by
  have bound := length_schoolbook_le (a.take half) (b.take half)
  rwa [List.length_take_of_le cutA, List.length_take_of_le cutB] at bound

theorem length_schoolbook_drop_le (a b : List R) (half : Nat)
    : (schoolbook (a.drop half) (b.drop half)).length
      ≤ a.length - half + (b.length - half) - 1 := by
  have bound := length_schoolbook_le (a.drop half) (b.drop half)
  rwa [List.length_drop, List.length_drop] at bound

/-- The low and the high product are no longer than the product of the sums, so subtracting them
does not lengthen it.
-/
theorem length_middle (low : 0 < half) (cutA : half ≤ a.length) (cutB : half ≤ b.length)
    (coverA : a.length ≤ 2 * half) (coverB : b.length ≤ 2 * half)
    : (sub (sub
          (schoolbook (add (a.take half) (a.drop half)) (add (b.take half) (b.drop half)))
          (schoolbook (a.take half) (b.take half)))
          (schoolbook (a.drop half) (b.drop half))).length = half + half - 1 := by
  have lowBound := length_schoolbook_take_le cutA cutB
  have highBound := length_schoolbook_drop_le a b half
  rw [length_sub, length_sub, length_schoolbook_sums low cutA cutB coverA coverB,
    max_eq_left lowBound, max_eq_left (by omega)]

/-- The three half-length products make up the product: what the product of the sums has too much
are the low and the high product. The middle product may end exactly at the end of the result.
-/
theorem addAt_balanced (low : 0 < half) (cutA : half < a.length)
    (cutB : half < b.length) (coverA : a.length ≤ 2 * half) (coverB : b.length ≤ 2 * half)
    (room : 3 * half ≤ a.length + b.length)
    : addAt (addAt (addAt (List.replicate (a.length + b.length - 1) 0) 0
          (schoolbook (a.take half) (b.take half))) half
          (sub (sub
            (schoolbook (add (a.take half) (a.drop half)) (add (b.take half) (b.drop half)))
            (schoolbook (a.take half) (b.take half)))
            (schoolbook (a.drop half) (b.drop half))))
          (2 * half) (schoolbook (a.drop half) (b.drop half))
      = schoolbook a b := by
  have lowBound := length_schoolbook_take_le cutA.le cutB.le
  have middleLength := length_middle low cutA.le cutB.le coverA coverB
  have highBound := length_schoolbook_drop_le a b half
  apply eq_schoolbook (List.ne_nil_of_length_pos (by omega))
    (List.ne_nil_of_length_pos (by omega)) (by simp)
  rw [toPolynomial_addAt (by rw [length_addAt, length_addAt, List.length_replicate]; omega),
    toPolynomial_addAt (by rw [length_addAt, List.length_replicate]; omega),
    toPolynomial_addAt (by rw [List.length_replicate]; omega),
    toPolynomial_take_add_drop cutA.le, toPolynomial_take_add_drop cutB.le]
  simp only [toPolynomial_replicate_zero, toPolynomial_schoolbook, toPolynomial_sub,
    toPolynomial_add]
  ring

end Balanced

/-- Karatsuba's product is the product by the definition, by induction on the recursion. -/
theorem karatsuba_eq_schoolbook (a b : List R) : karatsuba a b = schoolbook a b := by
  fun_induction karatsuba a b with
  | case1 a b short => rfl
  | case2 a b long half blank unbalanced longer shorter low high lowIH highIH =>
      have enough : ¬ min a.length b.length < 32 := long
      have atHalf : half = (max a.length b.length + 1) / 2 := rfl
      have lowEq : low = schoolbook (longer.take half) shorter := lowIH
      have highEq : high = schoolbook (longer.drop half) shorter := highIH
      rw [lowEq, highEq]
      by_cases order : b.length ≤ a.length
      · have first : longer = a := dif_pos order
        have second : shorter = b := dif_pos order
        rw [first, second]
        exact addAt_unbalanced (by omega) (by omega) (List.ne_nil_of_length_pos (by omega))
      · have first : longer = b := dif_neg order
        have second : shorter = a := dif_neg order
        have size : blank = List.replicate (b.length + a.length - 1) 0 := by
          simp only [blank, Nat.add_comm]
        rw [first, second, size, schoolbook_comm a b]
        exact addAt_unbalanced (by omega) (by omega) (List.ne_nil_of_length_pos (by omega))
  | case3 a b long half blank balanced low high whole middle lowIH highIH wholeIH =>
      have enough : ¬ min a.length b.length < 32 := long
      have atHalf : half = (max a.length b.length + 1) / 2 := rfl
      have lowEq : low = schoolbook (a.take half) (b.take half) := lowIH
      have highEq : high = schoolbook (a.drop half) (b.drop half) := highIH
      have wholeEq : whole = schoolbook (add (a.take half) (a.drop half))
          (add (b.take half) (b.drop half)) := wholeIH
      simp only [middle]
      rw [lowEq, highEq, wholeEq]
      exact addAt_balanced (by omega) (by omega) (by omega) (by omega) (by omega) (by omega)

end FastAlgebra
