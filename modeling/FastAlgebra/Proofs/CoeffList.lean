import Mathlib
import FastAlgebra.CoeffList
import FastAlgebra.Proofs.CoeffRing

/-! Coefficient lists as polynomials. Two lists of the same length that stand for the same
polynomial are equal, so the operations on lists are described by a length and a polynomial
each.
-/

namespace FastAlgebra.CoeffList

open Polynomial

variable {R : Type} [CommRing R]

/-- The polynomial with the given coefficients. -/
noncomputable def toPolynomial : List R → R[X]
  | [] => 0
  | c :: rest => C c + X * toPolynomial rest

-----------------------------------------------------------------------------------------
-- Coefficients
-----------------------------------------------------------------------------------------

@[simp]
theorem coeff_nil (i : Nat) : coeff ([] : List R) i = 0 :=
  rfl

@[simp]
theorem coeff_cons_zero (c : R) (rest : List R) : coeff (c :: rest) 0 = c :=
  rfl

@[simp]
theorem coeff_cons_succ (c : R) (rest : List R) (i : Nat)
    : coeff (c :: rest) (i + 1) = coeff rest i :=
  rfl

theorem coeff_eq_getElem {a : List R} {i : Nat} (h : i < a.length) : coeff a i = a[i] :=
  List.getD_eq_getElem a 0 h

/-- Past its end a list is zero. -/
theorem coeff_of_length_le {a : List R} {i : Nat} (h : a.length ≤ i) : coeff a i = 0 :=
  List.getD_eq_default a 0 h

/-- In an array the list is read in the same way. -/
theorem getD_toArray (a : List R) (i : Nat) : a.toArray.getD i 0 = coeff a i := by
  rw [Array.getD_eq_getD_getElem?, List.getElem?_toArray, coeff, List.getD_eq_getElem?_getD]

/-- The coefficients of the polynomial are those of the list, by induction on the list. -/
@[simp]
theorem coeff_toPolynomial (a : List R) (i : Nat) : (toPolynomial a).coeff i = coeff a i := by
  induction a generalizing i with
  | nil => simp [toPolynomial]
  | cons c rest ih => cases i <;> simp [toPolynomial, coeff_C, ih]

/-- Lists of the same length are equal if their coefficients are. -/
theorem ext_coeff {a b : List R} (length : a.length = b.length)
    (coeffs : ∀ i < a.length, coeff a i = coeff b i)
    : a = b := by
  apply List.ext_getElem length
  intro i ha hb
  rw [← coeff_eq_getElem ha, ← coeff_eq_getElem hb, coeffs i ha]

/-- Lists of the same length are equal if their polynomials are. -/
theorem ext_polynomial {a b : List R} (length : a.length = b.length)
    (same : toPolynomial a = toPolynomial b)
    : a = b := by
  apply ext_coeff length
  intro i _
  rw [← coeff_toPolynomial, same, coeff_toPolynomial]

/-- Lists of the same length are equal if their polynomials agree below the length. -/
theorem ext_of_X_pow_dvd {a b : List R} {n : Nat} (left : a.length = n) (right : b.length = n)
    (close : X ^ n ∣ toPolynomial a - toPolynomial b)
    : a = b := by
  apply ext_coeff (left.trans right.symm)
  intro i within
  have vanishes := X_pow_dvd_iff.mp close i (left ▸ within)
  rwa [coeff_sub, coeff_toPolynomial, coeff_toPolynomial, sub_eq_zero] at vanishes

/-- The degree stays below the length. -/
theorem degree_toPolynomial_lt (a : List R) : (toPolynomial a).degree < a.length := by
  rw [degree_lt_iff_coeff_zero]
  intro i h
  rw [coeff_toPolynomial, coeff_of_length_le h]

-----------------------------------------------------------------------------------------
-- Cutting and joining
-----------------------------------------------------------------------------------------

@[simp]
theorem toPolynomial_nil : toPolynomial ([] : List R) = 0 :=
  rfl

@[simp]
theorem toPolynomial_singleton (c : R) : toPolynomial [c] = C c := by
  simp [toPolynomial]

theorem toPolynomial_append (a b : List R)
    : toPolynomial (a ++ b) = toPolynomial a + X ^ a.length * toPolynomial b := by
  induction a with
  | nil => simp
  | cons c rest ih => simp only [List.cons_append, toPolynomial, ih, List.length_cons]; ring

@[simp]
theorem toPolynomial_replicate_zero (n : Nat)
    : toPolynomial (List.replicate n (0 : R)) = 0 := by
  induction n with
  | zero => rfl
  | succ n ih => simp [List.replicate_succ, toPolynomial, ih]

/-- A list is its first part and, from the cut on, its second part. -/
theorem toPolynomial_take_add_drop {n : Nat} {a : List R} (h : n ≤ a.length)
    : toPolynomial a = toPolynomial (a.take n) + X ^ n * toPolynomial (a.drop n) := by
  conv_lhs => rw [← List.take_append_drop n a, toPolynomial_append, List.length_take_of_le h]

/-- Cutting a list changes its polynomial by a multiple of a power of the variable. -/
theorem X_pow_dvd_sub_take (n : Nat) (a : List R)
    : X ^ n ∣ toPolynomial a - toPolynomial (a.take n) := by
  rcases Nat.le_total n a.length with within | past
  · rw [toPolynomial_take_add_drop within, add_sub_cancel_left]
    exact dvd_mul_right _ _
  · rw [List.take_of_length_le past, sub_self]
    exact dvd_zero _

theorem coeff_take (n : Nat) (a : List R) (i : Nat)
    : coeff (a.take n) i = if i < n then coeff a i else 0 := by
  simp only [coeff, List.getD_eq_getElem?_getD, List.getElem?_take]
  split <;> rfl

/-- Cutting behind the degree does not change the polynomial. -/
theorem toPolynomial_take {n : Nat} {a : List R} (small : (toPolynomial a).degree < n)
    : toPolynomial (a.take n) = toPolynomial a := by
  ext i
  rw [coeff_toPolynomial, coeff_take]
  split
  · exact (coeff_toPolynomial a i).symm
  · rw [coeff_eq_zero_of_degree_lt (small.trans_le (by exact_mod_cast (by omega : n ≤ i)))]

/-- Padding with zeros does not change the polynomial. -/
@[simp]
theorem toPolynomial_resize (n : Nat) (a : List R)
    : toPolynomial (resize n a) = toPolynomial (a.take n) := by
  rw [resize, toPolynomial_append, toPolynomial_replicate_zero, mul_zero, add_zero]

theorem coeff_zipWith {S U : Type} [CommRing S] [CommRing U] (f : R → S → U) {a : List R}
    {b : List S} {i : Nat} (left : i < a.length) (right : i < b.length)
    : coeff (List.zipWith f a b) i = f (coeff a i) (coeff b i) := by
  rw [coeff_eq_getElem (by rw [List.length_zipWith]; exact Nat.lt_min.mpr ⟨left, right⟩),
    List.getElem_zipWith, coeff_eq_getElem left, coeff_eq_getElem right]

-----------------------------------------------------------------------------------------
-- Sums and multiples
-----------------------------------------------------------------------------------------

@[simp]
theorem toPolynomial_add (a b : List R)
    : toPolynomial (add a b) = toPolynomial a + toPolynomial b := by
  fun_induction add a b with
  | case1 b => simp
  | case2 a _ => simp
  | case3 x a y b ih => simp only [toPolynomial, ih, C_add]; ring

theorem toPolynomial_map_mul_left (c : R) (a : List R)
    : toPolynomial (a.map (c * ·)) = C c * toPolynomial a := by
  induction a with
  | nil => simp
  | cons x rest ih => simp only [List.map_cons, toPolynomial, ih, C_mul]; ring

theorem toPolynomial_map_neg (a : List R)
    : toPolynomial (a.map (- ·)) = -toPolynomial a := by
  induction a with
  | nil => simp
  | cons x rest ih => simp only [List.map_cons, toPolynomial, ih, C_neg]; ring

@[simp]
theorem toPolynomial_sub (a b : List R)
    : toPolynomial (sub a b) = toPolynomial a - toPolynomial b := by
  fun_induction sub a b with
  | case1 b =>
      simp only [zero_sub, toPolynomial_nil]
      exact toPolynomial_map_neg b
  | case2 a _ => simp
  | case3 x a y b ih => simp only [toPolynomial, ih, C_sub]; ring

@[simp]
theorem length_sub (a b : List R) : (sub a b).length = max a.length b.length := by
  fun_induction sub a b <;> simp_all

@[simp]
theorem length_addOnto (a b : List R) : (addOnto a b).length = a.length := by
  fun_induction addOnto a b <;> simp_all

/-- A list that fits is added as a whole. -/
theorem toPolynomial_addOnto {a b : List R} (fits : b.length ≤ a.length)
    : toPolynomial (addOnto a b) = toPolynomial a + toPolynomial b := by
  fun_induction addOnto a b with
  | case1 b =>
      have empty : b = [] := List.length_eq_zero_iff.mp (Nat.le_zero.mp fits)
      simp [empty]
  | case2 a _ => simp
  | case3 x a y b ih =>
      simp only [toPolynomial, ih (by simpa using fits), C_add]
      ring

@[simp]
theorem length_addAt (a : List R) (offset : Nat) (b : List R)
    : (addAt a offset b).length = a.length := by
  simp only [addAt, List.length_append, List.length_take, length_addOnto, List.length_drop]
  omega

/-- Where nothing stands past the end, adding at an offset loses nothing. -/
theorem toPolynomial_addAt {a b : List R} {offset : Nat}
    (fits : offset + b.length ≤ a.length)
    : toPolynomial (addAt a offset b) = toPolynomial a + X ^ offset * toPolynomial b := by
  have start : offset ≤ a.length := by omega
  have rest : b.length ≤ (a.drop offset).length := by
    rw [List.length_drop]
    omega
  rw [addAt, toPolynomial_append, toPolynomial_addOnto rest, List.length_take_of_le start,
    toPolynomial_take_add_drop start]
  ring

/-- The value at a point is what Horner's rule computes, by induction on the list. -/
theorem eval_toPolynomial (x : R) (a : List R)
    : (toPolynomial a).eval x = a.foldr (fun c value => value * x + c) 0 := by
  induction a with
  | nil => simp
  | cons c rest ih => simp only [toPolynomial, eval_add, eval_C, eval_mul, eval_X, ih,
      List.foldr_cons]; ring

-----------------------------------------------------------------------------------------
-- Derivatives
-----------------------------------------------------------------------------------------

section Derivative

variable {R : Type} [CoeffRing R]

theorem length_derivative (a : List R) : (derivative a).length = a.length - 1 := by
  rw [derivative, List.length_map, List.length_drop, List.length_zipIdx]

variable [LawfulRing R]

/-- Each coefficient of the derivative is the next one of the list times its degree. -/
theorem coeff_derivative (a : List R) (i : Nat)
    : coeff (derivative a) i = coeff a (i + 1) * ((i : R) + 1) := by
  rcases Nat.lt_or_ge (i + 1) a.length with within | past
  · have short : i < (derivative a).length := by
      rw [length_derivative]
      omega
    rw [coeff_eq_getElem short, coeff_eq_getElem within]
    simp [derivative, LawfulRing.ofNat_eq_cast, Nat.add_comm 1 i]
  · have short : (derivative a).length ≤ i := by
      rw [length_derivative]
      omega
    rw [coeff_of_length_le short, coeff_of_length_le past, zero_mul]

theorem toPolynomial_derivative (a : List R)
    : toPolynomial (derivative a) = Polynomial.derivative (toPolynomial a) := by
  ext i
  rw [coeff_toPolynomial, Polynomial.coeff_derivative, coeff_toPolynomial, coeff_derivative]

end Derivative

end FastAlgebra.CoeffList
