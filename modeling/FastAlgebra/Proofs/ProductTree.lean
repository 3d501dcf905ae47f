import Mathlib
import FastAlgebra.ProductTree
import FastAlgebra.Proofs.Poly.Division

/-! Evaluation at many points. A node of the tree holds the product of `x - x_i` over the points
below it, so the remainder by a node keeps the values at these points, and each leaf receives a
polynomial with the right value at its point.
-/

namespace FastAlgebra

open Polynomial

variable {F : Type} [KernelField F] [ExactKernels F]

/-- The remainder keeps the values at the zeros of the divisor. -/
theorem Poly.IsDivision.eval_eq {p d q r : Poly F} (nonzero : d ≠ zero)
    (division : IsDivision p d q r) {point : F} (root : d.toPolynomial.IsRoot point)
    : r.eval point = p.eval point := by
  obtain ⟨identity, _⟩ := (isDivision_iff nonzero).mp division
  rw [Poly.eval_eq, Poly.eval_eq, identity, eval_add, eval_mul, root.eq_zero, mul_zero, zero_add]

namespace PointTree

theorem size_eq {F : Type} [KernelField F] (tree : PointTree F)
    : tree.size = tree.points.length := by
  induction tree with
  | leaf point => rfl
  | node product left right ihl ihr =>
      rw [size, ihl, ihr, points, List.length_append]

theorem points_ne_nil {F : Type} [KernelField F] (tree : PointTree F) : tree.points ≠ [] := by
  induction tree with
  | leaf point => exact List.cons_ne_nil point []
  | node product left right ihl ihr =>
      intro none
      exact ihl (List.append_eq_nil_iff.mp none).1

/-- Every inner node holds the product of its two halves. -/
def WellFormed : PointTree F → Prop
  | .leaf _ => True
  | .node product left right =>
      product.toPolynomial = left.product.toPolynomial * right.product.toPolynomial
        ∧ left.WellFormed ∧ right.WellFormed

/-- The product of a node runs over the points below it. -/
theorem WellFormed.toPolynomial_product {tree : PointTree F} (wellFormed : tree.WellFormed)
    : tree.product.toPolynomial = (tree.points.map fun point => X - C point).prod := by
  induction tree with
  | leaf point => rw [product, Poly.toPolynomial_linear, points, List.map_singleton,
      List.prod_singleton]
  | node product left right ihl ihr =>
      obtain ⟨halves, wellLeft, wellRight⟩ := wellFormed
      rw [PointTree.product, halves, ihl wellLeft, ihr wellRight, points, List.map_append,
        List.prod_append]

theorem WellFormed.product_ne_zero {tree : PointTree F} (wellFormed : tree.WellFormed)
    : tree.product ≠ Poly.zero := by
  rw [Ne, ← Poly.toPolynomial_eq_zero_iff, wellFormed.toPolynomial_product,
    List.prod_eq_zero_iff]
  intro member
  obtain ⟨point, _, vanishes⟩ := List.mem_map.mp member
  exact X_sub_C_ne_zero point vanishes

theorem WellFormed.isRoot_product {tree : PointTree F} (wellFormed : tree.WellFormed) {point : F}
    (member : point ∈ tree.points)
    : tree.product.toPolynomial.IsRoot point := by
  rw [wellFormed.toPolynomial_product]
  have factor : X - C point ∈ tree.points.map fun point => X - C point :=
    List.mem_map_of_mem member
  exact (root_X_sub_C.mpr rfl).dvd (List.dvd_prod factor)

/-- Building keeps the points in their order, by induction along the halving. -/
theorem exists_build_yields (config : TreeConfig) (points : List F) (nonempty : points ≠ [])
    : ∃ tree, (build config points nonempty).Yields tree
        ∧ tree.points = points ∧ tree.WellFormed := by
  induction points, nonempty using build.induct with
  | case1 point =>
      rw [build]
      exact ⟨.leaf point, Logged.yields_pure _, rfl, trivial⟩
  | case2 first second rest _ _ all mid ihl ihr =>
      obtain ⟨left, yieldsLeft, pointsLeft, wellLeft⟩ := ihl
      obtain ⟨right, yieldsRight, pointsRight, wellRight⟩ := ihr
      obtain ⟨product, yields, halves⟩ := Poly.exists_mul_yields left.product right.product
      refine ⟨.node product left right, ?_, ?_, halves, wellLeft, wellRight⟩
      · rw [build]
        exact (Logged.Yields.both yieldsLeft yieldsRight).bind
          (yields.bind (Logged.yields_pure _))
      · rw [PointTree.points, pointsLeft, pointsRight, List.take_append_drop]

/-- A leaf that divides finds the value as the remainder by `x - point`. -/
theorem exists_remainder_linear_yields (p : Poly F) (point : F)
    : ∃ r, (p.remainder (Poly.linear point)).Yields r ∧ r.coeff 0 = p.eval point := by
  have nonzero : Poly.linear point ≠ Poly.zero := by
    rw [Ne, ← Poly.toPolynomial_eq_zero_iff, Poly.toPolynomial_linear]
    exact X_sub_C_ne_zero point
  obtain ⟨q, r, yields, division⟩ := Poly.exists_remainder_yields p nonzero
  refine ⟨r, yields, ?_⟩
  obtain ⟨identity, small⟩ := (Poly.isDivision_iff nonzero).mp division
  have root : (Poly.linear point).toPolynomial.IsRoot point := by
    rw [Poly.toPolynomial_linear]
    exact root_X_sub_C.mpr rfl
  have constant : r.toPolynomial = C (r.toPolynomial.coeff 0) := by
    apply eq_C_of_degree_le_zero
    rw [Poly.toPolynomial_linear, degree_X_sub_C] at small
    exact Order.le_of_lt_succ small
  rw [← division.eval_eq nonzero root, Poly.eval_eq, constant, eval_C, Poly.coeff_toPolynomial]

/-- Wherever the descent turns to direct evaluation, it ends with the values at the points in
their order, by induction on the tree.
-/
theorem WellFormed.evaluate_yields {tree : PointTree F} (wellFormed : tree.WellFormed)
    (config : TreeConfig) (p : Poly F)
    : (tree.evaluate config p).Yields (tree.points.map p.eval) := by
  induction tree generalizing p with
  | leaf point =>
      rw [evaluate, points, List.map_singleton]
      split
      · exact Logged.yields_pure _
      · obtain ⟨r, yields, value⟩ := exists_remainder_linear_yields p point
        refine yields.bind ?_
        rw [value]
        exact Logged.yields_pure _
  | node product left right ihl ihr =>
      -- Both facts are about the node as a whole, so they come before it is taken apart.
      have nonzero := wellFormed.product_ne_zero
      have roots := fun point => @WellFormed.isRoot_product _ _ _ _ wellFormed point
      obtain ⟨_, wellLeft, wellRight⟩ := wellFormed
      simp only [evaluate]
      split
      · exact Logged.yields_pure _
      · obtain ⟨q, r, yields, division⟩ := Poly.exists_remainder_yields p nonzero
        have values : (left.points ++ right.points).map r.eval
            = (left.points ++ right.points).map p.eval := by
          apply List.map_congr_left
          intro point member
          exact division.eval_eq nonzero (roots point member)
        refine yields.bind
          ((Logged.Yields.both (ihl wellLeft r) (ihr wellRight r)).bind ?_)
        rw [← List.map_append, values]
        exact Logged.yields_pure _

end PointTree

namespace ProductTree

/-- There is a tree over the points unless there are none. -/
def WellFormed (tree : ProductTree F) : Prop :=
  match tree.root with
  | some root => root.points = tree.points ∧ root.WellFormed
  | none => tree.points = []

theorem exists_build_yields (points : List F) (config : TreeConfig)
    : ∃ tree, (build points config).Yields tree ∧ tree.points = points ∧ tree.WellFormed := by
  cases points with
  | nil =>
      exact ⟨⟨[], config, none⟩, (Logged.yields_emit _).bind (Logged.yields_pure _), rfl, rfl⟩
  | cons first rest =>
      obtain ⟨root, yields, same, wellFormed⟩ :=
        PointTree.exists_build_yields config (first :: rest) (List.cons_ne_nil first rest)
      exact ⟨⟨first :: rest, config, some root⟩,
        (Logged.yields_emit _).bind (yields.bind (Logged.yields_pure _)), rfl, same, wellFormed⟩

theorem WellFormed.evaluate_yields {tree : ProductTree F} (wellFormed : tree.WellFormed)
    (p : Poly F)
    : (tree.evaluate p).Yields (tree.points.map p.eval) := by
  obtain ⟨points, config, root⟩ := tree
  cases root with
  | none =>
      have empty : points = [] := wellFormed
      rw [empty]
      exact Logged.yields_pure _
  | some root =>
      obtain ⟨same, wellRoot⟩ := wellFormed
      have values := wellRoot.evaluate_yields config p
      rw [same] at values
      exact values

/-- A tree that is built for the occasion yields the values. -/
theorem build_evaluate_yields (p : Poly F) (points : List F) (config : TreeConfig)
    : (build points config >>= (·.evaluate p)).Yields (points.map p.eval) := by
  obtain ⟨tree, yields, same, wellFormed⟩ := exists_build_yields points config
  have values := wellFormed.evaluate_yields p
  rw [same] at values
  exact yields.bind values

end ProductTree

namespace Poly

theorem evaluateWith_yields (p : Poly F) (points : List F) (config : TreeConfig)
    : (p.evaluateWith points config).Yields (points.map p.eval) := by
  rw [evaluateWith]
  split
  · exact Logged.yields_pure _
  · exact ProductTree.build_evaluate_yields p points config

end Poly

end FastAlgebra
