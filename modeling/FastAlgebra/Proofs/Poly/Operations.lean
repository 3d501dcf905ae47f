import Mathlib
import FastAlgebra.Proofs.ProductTree

/-! What the operations on polynomials in normal form stand for. Each one is an operation on the
polynomials of algebra, so the laws of algebra carry over to the normal forms.
-/

namespace FastAlgebra

open Polynomial

namespace CoeffList

variable {R : Type} [CommRing R]

theorem toPolynomial_map_mul_right (c : R) (a : List R)
    : toPolynomial (a.map (· * c)) = toPolynomial a * C c := by
  have sides : (· * c) = (c * ·) := funext fun x => mul_comm x c
  rw [sides, toPolynomial_map_mul_left, mul_comm]

/-- The coefficients of a list that is made from a function. -/
theorem coeff_map_range (f : Nat → R) (n i : Nat)
    : coeff ((List.range n).map f) i = if i < n then f i else 0 := by
  split
  · rename_i within
    rw [coeff_eq_getElem (by simpa using within), List.getElem_map, List.getElem_range]
  · rename_i past
    exact coeff_of_length_le (by simpa using past)

theorem coeff_resize (n : Nat) (a : List R) (i : Nat)
    : coeff (resize n a) i = if i < n then coeff a i else 0 := by
  rw [← coeff_toPolynomial, toPolynomial_resize, coeff_toPolynomial, coeff_take]

theorem coeff_reverse_resize (n : Nat) (a : List R) (i : Nat)
    : coeff (resize n a).reverse i = if i < n then coeff a (n - 1 - i) else 0 := by
  split
  · rename_i within
    have mirrored : coeff (resize n a) (n - 1 - i) = coeff a (n - 1 - i) := by
      rw [coeff_resize, if_pos (by omega)]
    rw [← mirrored, coeff_eq_getElem (by simpa using within), List.getElem_reverse,
      coeff_eq_getElem (by rw [length_resize]; omega)]
    simp only [length_resize]
  · rename_i past
    exact coeff_of_length_le (by simpa using past)

end CoeffList

/-- What was made for a length has a length within the limit. -/
theorem le_of_ofLength_eq_ok {α : Type} {make : Nat → α} {length : Nat} {made : α}
    (h : ofLength make length = .ok made)
    : length ≤ longestList := by
  by_contra long
  rw [ofLength, if_neg long] at h
  exact nomatch h

namespace Poly

-----------------------------------------------------------------------------------------
-- Rings
-----------------------------------------------------------------------------------------

section Ring

variable {R : Type} [CoeffRing R] [LawfulRing R]

@[simp]
theorem toPolynomial_constant (c : R) : (constant c).toPolynomial = C c := by
  rw [constant, toPolynomial_ofCoeffs, CoeffList.toPolynomial_singleton]

@[simp]
theorem toPolynomial_monomial (c : R) (n : Nat) : (monomial c n).toPolynomial = C c * X ^ n := by
  rw [monomial, toPolynomial_ofCoeffs, CoeffList.toPolynomial_append,
    CoeffList.toPolynomial_replicate_zero, CoeffList.toPolynomial_singleton, List.length_replicate,
    zero_add, mul_comm]

@[simp]
theorem toPolynomial_x : (x : Poly R).toPolynomial = X := by
  rw [x, toPolynomial_monomial, C_1, one_mul, pow_one]

@[simp]
theorem toPolynomial_sub (p q : Poly R)
    : (p.sub q).toPolynomial = p.toPolynomial - q.toPolynomial := by
  rw [sub, toPolynomial_ofCoeffs, CoeffList.toPolynomial_sub]
  rfl

@[simp]
theorem toPolynomial_neg (p : Poly R) : p.neg.toPolynomial = -p.toPolynomial := by
  rw [neg, toPolynomial_ofCoeffs, CoeffList.toPolynomial_map_neg]
  rfl

@[simp]
theorem toPolynomial_scale (p : Poly R) (c : R)
    : (p.scale c).toPolynomial = p.toPolynomial * C c := by
  rw [scale, toPolynomial_ofCoeffs, CoeffList.toPolynomial_map_mul_right]
  rfl

@[simp]
theorem toPolynomial_shift (p : Poly R) (n : Nat)
    : (p.shift n).toPolynomial = X ^ n * p.toPolynomial := by
  rw [shift]
  split
  · rename_i trivial
    rw [(isZero_iff p).mp trivial, toPolynomial_zero, mul_zero]
  · rw [toPolynomial_ofCoeffs, CoeffList.toPolynomial_append, CoeffList.toPolynomial_replicate_zero,
      List.length_replicate, zero_add]
    rfl

/-- A shift succeeds if it is one of zero or within the limit. -/
theorem shiftWithin_eq_ok {p : Poly R} {n : Nat} (fits : p = zero ∨ n ≤ longestList)
    : p.shiftWithin n = .ok (p.shift n) := by
  rw [shiftWithin]
  split
  · rename_i trivial
    rw [shift, if_pos trivial]
  · rename_i nonzero
    exact ofLength_eq_ok _ (fits.resolve_left ((isZero_iff p).not.mp nonzero))

theorem within_of_shiftWithin_eq_ok {p r : Poly R} {n : Nat} (h : p.shiftWithin n = .ok r)
    : p = zero ∨ n ≤ longestList := by
  rw [shiftWithin] at h
  split at h
  · rename_i trivial
    exact .inl ((isZero_iff p).mp trivial)
  · exact .inr (le_of_ofLength_eq_ok h)

end Ring

-----------------------------------------------------------------------------------------
-- Fields
-----------------------------------------------------------------------------------------

section Field

variable {F : Type} [CoeffField F] [LawfulField F]

/-- The terms of degree below `n` are the remainder by `x^n`. -/
@[simp]
theorem toPolynomial_truncate (p : Poly F) (n : Nat)
    : (p.truncate n).toPolynomial = p.toPolynomial % X ^ n := by
  rw [truncate, toPolynomial_ofCoeffs]
  obtain ⟨quotient, higher⟩ := CoeffList.X_pow_dvd_sub_take n p.coeffs
  have identity : p.toPolynomial = quotient * X ^ n + CoeffList.toPolynomial (p.coeffs.take n) := by
    rw [mul_comm, ← higher, sub_add_cancel]
    rfl
  have small : (CoeffList.toPolynomial (p.coeffs.take n)).degree < (X ^ n : F[X]).degree := by
    rw [degree_X_pow]
    exact (CoeffList.degree_toPolynomial_lt _).trans_le (by exact_mod_cast List.length_take_le _ _)
  exact (Poly.eq_div_and_eq_mod (pow_ne_zero n X_ne_zero) identity small).2

/-- Reversing the first coefficients is reversing the remainder by `x^length`. -/
@[simp]
theorem toPolynomial_reverse (p : Poly F) (length : Nat)
    : (p.reverse length).toPolynomial = (p.toPolynomial % X ^ length).reflect (length - 1) := by
  ext i
  rw [reverse, toPolynomial_ofCoeffs, CoeffList.coeff_toPolynomial, CoeffList.coeff_reverse_resize,
    Polynomial.coeff_reflect, ← toPolynomial_truncate, truncate, toPolynomial_ofCoeffs,
    CoeffList.coeff_toPolynomial, CoeffList.coeff_take]
  by_cases within : i < length
  · rw [if_pos within, revAt_le (by omega), if_pos (by omega)]
  · rw [if_neg within]
    by_cases empty : length = 0
    · rw [if_neg (by omega)]
    · rw [revAt_eq_self_of_lt (by omega), if_neg within]

/-- The zero polynomial has no leading coefficient to divide by, and zero over zero is zero. -/
@[simp]
theorem toPolynomial_monic (p : Poly F)
    : p.monic.toPolynomial = p.toPolynomial * C p.toPolynomial.leadingCoeff⁻¹ := by
  have leading : p.toPolynomial.leadingCoeff = p.lead := by
    rw [leadingCoeff, natDegree_toPolynomial, coeff_toPolynomial, coeff_degree]
  rw [leading, monic]
  by_cases vanishes : p.lead = 0
  · have trivial : p.toPolynomial = 0 := by
      rwa [← leadingCoeff_eq_zero, leading]
    rw [vanishes, LawfulField.inv?_zero, trivial, zero_mul]
  · rw [LawfulField.inv?_eq_some vanishes, toPolynomial_scale]

end Field

-----------------------------------------------------------------------------------------
-- Kernels
-----------------------------------------------------------------------------------------

section Kernel

variable {F : Type} [KernelField F]

/-- One digit of the exponent: the result takes the base if the digit is one, and the base is
squared unless the digit is the last one.
-/
theorem mulPow_of_pos (result base : Poly F) {n : Nat} (positive : 0 < n)
    : mulPow result base n
      = (if n % 2 = 1 then result.mul base else pure result) >>= fun next =>
          if n = 1 then pure next
          else base.mul base >>= fun square => mulPow next square (n / 2) := by
  rw [mulPow, if_neg (by omega)]
  by_cases odd : n % 2 = 1
  · simp only [if_pos odd]
  · simp only [if_neg odd]

variable [ExactKernels F]

/-- Squaring along the binary digits multiplies by a power, by induction on the exponent. -/
theorem exists_mulPow_yields (result base : Poly F) (n : Nat)
    : ∃ r, (mulPow result base n).Yields r
        ∧ r.toPolynomial = result.toPolynomial * base.toPolynomial ^ n := by
  induction n using Nat.strongRecOn generalizing result base with
  | ind n ih =>
      by_cases none : n = 0
      · exact ⟨result, by rw [mulPow, if_pos none]; exact Logged.yields_pure _,
          by rw [none, pow_zero, mul_one]⟩
      rw [mulPow_of_pos _ _ (Nat.pos_of_ne_zero none)]
      obtain ⟨next, step, nextEq⟩
          : ∃ next, (if n % 2 = 1 then result.mul base else pure result).Yields next
              ∧ next.toPolynomial = result.toPolynomial * base.toPolynomial ^ (n % 2) := by
        rcases Nat.mod_two_eq_zero_or_one n with even | odd
        · exact ⟨result, by rw [if_neg (by omega)]; exact Logged.yields_pure _,
            by rw [even, pow_zero, mul_one]⟩
        · obtain ⟨product, yields, productEq⟩ := exists_mul_yields result base
          exact ⟨product, by rwa [if_pos odd], by rw [odd, pow_one, productEq]⟩
      by_cases single : n = 1
      · refine ⟨next, step.bind ?_, by rw [nextEq, single]⟩
        rw [if_pos single]
        exact Logged.yields_pure _
      · obtain ⟨square, squares, squareEq⟩ := exists_mul_yields base base
        obtain ⟨r, yields, whole⟩ := ih (n / 2) (by omega) next square
        refine ⟨r, step.bind ?_, ?_⟩
        · rw [if_neg single]
          exact squares.bind yields
        · rw [whole, nextEq, squareEq, ← pow_two, ← pow_mul, mul_assoc, ← pow_add,
            Nat.mod_add_div]

theorem exists_pow_yields (p : Poly F) (n : Nat)
    : ∃ r, (p.pow n).Yields r ∧ r.toPolynomial = p.toPolynomial ^ n := by
  obtain ⟨r, yields, power⟩ := exists_mulPow_yields one p n
  exact ⟨r, yields, by rw [power, toPolynomial_one, one_mul]⟩

/-- The product over the roots is the product of a tree over them. -/
theorem exists_fromRoots_yields (roots : List F)
    : ∃ r, (fromRoots roots).Yields r
        ∧ r.toPolynomial = (roots.map fun root => X - C root).prod := by
  obtain ⟨tree, yields, points, wellFormed⟩ := ProductTree.exists_build_yields roots .standard
  refine ⟨tree.product, yields.map ProductTree.product, ?_⟩
  rw [ProductTree.product]
  cases found : tree.root with
  | some root =>
      simp only [ProductTree.WellFormed, found] at wellFormed
      exact points ▸ wellFormed.1 ▸ wellFormed.2.toPolynomial_product
  | none =>
      simp only [ProductTree.WellFormed, found] at wellFormed
      have none : roots = [] := points.symm.trans wellFormed
      rw [none]
      exact toPolynomial_one

/-- Division yields the quotient and the remainder of algebra. -/
theorem exists_divRem_yields_div_mod (p : Poly F) {d : Poly F} (nonzero : d ≠ zero)
    : ∃ q r, (p.divRem d).Yields (q, r)
        ∧ q.toPolynomial = p.toPolynomial / d.toPolynomial
        ∧ r.toPolynomial = p.toPolynomial % d.toPolynomial := by
  obtain ⟨q, r, yields, division⟩ := exists_divRem_yields p nonzero
  exact ⟨q, r, yields, division.eq_div_and_eq_mod nonzero⟩

end Kernel

end Poly

end FastAlgebra
