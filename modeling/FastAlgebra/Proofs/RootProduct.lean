import Mathlib

/-! The product of `x - x_i` over a list of points. The points are its zeros, and its derivative
vanishes at those of them that are repeated.
-/

namespace FastAlgebra

open Polynomial

variable {K : Type} [Field K]

/-- The product of `x - x_i` over the points. -/
noncomputable def rootProduct (points : List K) : K[X] :=
  (points.map fun point => X - C point).prod

theorem rootProduct_cons (point : K) (points : List K)
    : rootProduct (point :: points) = (X - C point) * rootProduct points :=
  List.prod_cons

theorem rootProduct_append (first second : List K)
    : rootProduct (first ++ second) = rootProduct first * rootProduct second := by
  rw [rootProduct, List.map_append, List.prod_append]
  rfl

/-- The points are the zeros of the product. -/
theorem eval_rootProduct_eq_zero_iff (points : List K) (point : K)
    : (rootProduct points).eval point = 0 ↔ point ∈ points := by
  induction points with
  | nil => simp [rootProduct]
  | cons head points ih =>
      rw [rootProduct_cons, eval_mul, mul_eq_zero, ih, eval_sub, eval_X, eval_C, sub_eq_zero,
        List.mem_cons]

theorem degree_rootProduct (points : List K) : (rootProduct points).degree = points.length := by
  induction points with
  | nil => exact degree_one
  | cons point points ih =>
      rw [rootProduct_cons, degree_mul, degree_X_sub_C, ih, List.length_cons, Nat.cast_succ,
        add_comm]

theorem monic_rootProduct (points : List K) : (rootProduct points).Monic := by
  induction points with
  | nil => exact monic_one
  | cons point points ih =>
      rw [rootProduct_cons]
      exact (monic_X_sub_C point).mul ih

/-- The points are the zeros of the product, each as often as it is repeated. -/
theorem roots_rootProduct (points : List K)
    : (rootProduct points).roots = points := by
  have roots := roots_multiset_prod_X_sub_C (points : Multiset K)
  rwa [Multiset.map_coe, Multiset.prod_coe] at roots

theorem derivative_rootProduct_cons (point : K) (points : List K)
    : derivative (rootProduct (point :: points))
      = rootProduct points + (X - C point) * derivative (rootProduct points) := by
  rw [rootProduct_cons, derivative_mul, derivative_X_sub_C, one_mul]

/-- At a point of the list the derivative of the product vanishes if the point stands there more
than once, by induction on the list.
-/
theorem eval_derivative_rootProduct_eq_zero_iff [DecidableEq K] {points : List K} {point : K}
    (member : point ∈ points)
    : (derivative (rootProduct points)).eval point = 0 ↔ 2 ≤ points.count point := by
  induction points with
  | nil => exact absurd member List.not_mem_nil
  | cons head points ih =>
      simp only [derivative_rootProduct_cons, eval_add, eval_mul, eval_sub, eval_X, eval_C]
      by_cases same : point = head
      · subst same
        rw [sub_self, zero_mul, add_zero, eval_rootProduct_eq_zero_iff, List.count_cons_self,
          ← List.count_pos_iff]
        omega
      · have later : point ∈ points := (List.mem_cons.mp member).resolve_left same
        have vanishes := (eval_rootProduct_eq_zero_iff points point).mpr later
        rw [vanishes, zero_add, mul_eq_zero, or_iff_right (sub_ne_zero.mpr same), ih later,
          List.count_cons_of_ne (Ne.symm same)]

/-- Over distinct points the derivative of the product does not vanish at any of them. -/
theorem eval_derivative_rootProduct_ne_zero {points : List K} (distinct : points.Nodup) {point : K}
    (member : point ∈ points)
    : (derivative (rootProduct points)).eval point ≠ 0 := by
  classical
  have once := List.nodup_iff_count_le_one.mp distinct point
  rw [Ne, eval_derivative_rootProduct_eq_zero_iff member]
  omega

end FastAlgebra
