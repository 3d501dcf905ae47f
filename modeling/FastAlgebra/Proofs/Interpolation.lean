import Mathlib
import FastAlgebra.ProductTree
import FastAlgebra.Proofs.ProductTree.Spans

/-! Interpolation through many points. The tree adds up, over the points, a weight times the product
of `x - x_j` over the other points. At a point this is the weight times the derivative of the
product over all points, whether points repeat or not; so over distinct points the weights can be
chosen for any values.
-/

namespace FastAlgebra

open Polynomial

-----------------------------------------------------------------------------------------
-- Weighted sums over lists of points
-----------------------------------------------------------------------------------------

section WeightedSum

variable {K : Type} [Field K]

/-- The sum over the points of a weight times the product of `x - x_j` over the other points. -/
noncomputable def weightedSum : (points weights : List K) → K[X]
  | [], _ => 0
  | _ :: _, [] => 0
  | point :: points, weight :: weights =>
      C weight * rootProduct points + (X - C point) * weightedSum points weights

/-- The sum over two lists of points: each part is multiplied by the product of the other. -/
theorem weightedSum_append {points weights : List K} (length : weights.length = points.length)
    (morePoints moreWeights : List K)
    : weightedSum (points ++ morePoints) (weights ++ moreWeights)
      = weightedSum points weights * rootProduct morePoints
        + weightedSum morePoints moreWeights * rootProduct points := by
  induction points generalizing weights with
  | nil =>
      obtain rfl := List.length_eq_zero_iff.mp length
      simp [weightedSum, rootProduct]
  | cons point points ih =>
      obtain ⟨weight, weights, rfl⟩ := List.exists_cons_of_length_eq_add_one length
      have rest := ih (Nat.succ.inj length)
      simp only [List.cons_append, weightedSum, rest, rootProduct_append, rootProduct_cons]
      ring

/-- At a point the sum is its weight times the derivative of the product over all points. Where the
point is repeated both are zero.
-/
theorem eval_weightedSum {points weights : List K} {point weight : K}
    (member : (point, weight) ∈ points.zip weights)
    : (weightedSum points weights).eval point
      = weight * (derivative (rootProduct points)).eval point := by
  induction points generalizing weights with
  | nil => exact absurd member List.not_mem_nil
  | cons head points ih =>
      cases weights with
      | nil => exact absurd member List.not_mem_nil
      | cons first weights =>
          simp only [weightedSum, derivative_rootProduct_cons, eval_add, eval_mul, eval_sub,
            eval_X, eval_C]
          rcases List.mem_cons.mp member with here | later
          · obtain ⟨rfl, rfl⟩ := Prod.mk.inj here
            ring
          · have inside := (List.of_mem_zip later).1
            rw [(eval_rootProduct_eq_zero_iff points point).mpr inside, ih later]
            ring

/-- The degree of the sum stays below the number of points. -/
theorem degree_weightedSum_lt (points weights : List K)
    : (weightedSum points weights).degree < points.length := by
  induction points generalizing weights with
  | nil =>
      rw [weightedSum, degree_zero]
      exact WithBot.bot_lt_coe 0
  | cons point points ih =>
      have longer : (points.length : WithBot Nat) < (point :: points).length := by
        exact_mod_cast Nat.lt_succ_self points.length
      cases weights with
      | nil =>
          rw [weightedSum, degree_zero]
          exact WithBot.bot_lt_coe _
      | cons weight weights =>
          have first : (C weight * rootProduct points).degree ≤ points.length := by
            rw [← smul_eq_C_mul, ← degree_rootProduct points]
            exact degree_smul_le weight _
          have rest : ((X - C point) * weightedSum points weights).degree
              < ((point :: points).length : WithBot Nat) := by
            rw [degree_mul, degree_X_sub_C, List.length_cons, Nat.cast_succ, add_comm]
            exact WithBot.add_lt_add_right WithBot.one_ne_bot (ih weights)
          rw [weightedSum]
          exact (degree_add_le _ _).trans_lt (max_lt (first.trans_lt longer) rest)

/-- Values over the slopes of the product at the points. -/
noncomputable def weightsFor (points values : List K) : List K :=
  List.zipWith (fun slope value => value * slope⁻¹)
    (points.map (derivative (rootProduct points)).eval) values

theorem length_weightsFor {points values : List K} (length : values.length = points.length)
    : (weightsFor points values).length = points.length := by
  rw [weightsFor, List.length_zipWith, List.length_map, length, min_self]

/-- Over distinct points the sum with these weights takes the values. -/
theorem map_eval_weightedSum {points values : List K} (distinct : points.Nodup)
    (length : values.length = points.length)
    : points.map (weightedSum points (weightsFor points values)).eval = values := by
  apply List.ext_getElem
  · rw [List.length_map, length]
  intro i within _
  rw [List.length_map] at within
  have slope := eval_derivative_rootProduct_ne_zero distinct (List.getElem_mem within)
  have member : (points[i], values[i] * ((derivative (rootProduct points)).eval points[i])⁻¹)
      ∈ points.zip (weightsFor points values) :=
    List.mem_iff_getElem.mpr ⟨i, by simp [length_weightsFor length, within], by simp [weightsFor]⟩
  rw [List.getElem_map, eval_weightedSum member, mul_assoc, inv_mul_cancel₀ slope, mul_one]

/-- A polynomial of degree below the number of distinct points is determined by its values there. -/
theorem eq_of_eval_eq {points : List K} (distinct : points.Nodup) {p q : K[X]}
    (smallP : p.degree < points.length) (smallQ : q.degree < points.length)
    (same : points.map p.eval = points.map q.eval)
    : p = q := by
  classical
  have card : points.toFinset.card = points.length := List.toFinset_card_of_nodup distinct
  apply eq_of_degrees_lt_of_eval_finset_eq points.toFinset
  · rwa [card]
  · rwa [card]
  · intro point member
    exact List.map_inj_left.mp same point (List.mem_toFinset.mp member)

end WeightedSum

-----------------------------------------------------------------------------------------
-- Interpolation by the tree
-----------------------------------------------------------------------------------------

variable {F : Type} [KernelField F] [ExactKernels F]

namespace PointTree

/-- The slopes of the product of a tree at its points are those of the product over the points. -/
theorem WellFormed.map_eval_derivative {tree : PointTree F} (wellFormed : tree.WellFormed)
    : tree.points.map tree.product.derivative.eval
      = tree.points.map (derivative (rootProduct tree.points)).eval := by
  apply List.map_congr_left
  intro point _
  rw [Poly.eval_eq, Poly.toPolynomial_derivative, wellFormed.toPolynomial_product]
  rfl

/-- Combining weights along the tree yields the weighted sum, by induction on the tree. -/
theorem WellFormed.exists_combine_yields {tree : PointTree F} (wellFormed : tree.WellFormed)
    (config : TreeConfig) {weights : List F} (length : weights.length = tree.points.length)
    : ∃ p, (tree.combine config weights).Yields p
        ∧ p.toPolynomial = weightedSum tree.points weights := by
  induction tree generalizing weights with
  | leaf point =>
      obtain ⟨weight, rfl⟩ := List.length_eq_one_iff.mp length
      refine ⟨_, Logged.yields_pure _, ?_⟩
      simp [points, weightedSum, rootProduct, Poly.constant]
  | node product left right ihl ihr =>
      obtain ⟨_, wellLeft, wellRight⟩ := wellFormed
      rw [points, List.length_append] at length
      have leftLength : (weights.take left.size).length = left.points.length := by
        rw [List.length_take, size_eq]
        omega
      have rightLength : (weights.drop left.size).length = right.points.length := by
        rw [List.length_drop, size_eq]
        omega
      obtain ⟨p, yieldsLeft, first⟩ := ihl wellLeft leftLength
      obtain ⟨q, yieldsRight, second⟩ := ihr wellRight rightLength
      obtain ⟨a, timesRight, productA⟩ := Poly.exists_mul_yields p right.product
      obtain ⟨b, timesLeft, productB⟩ := Poly.exists_mul_yields q left.product
      refine ⟨a.add b, ?_, ?_⟩
      · rw [combine]
        exact (Logged.Yields.both yieldsLeft yieldsRight).bind
          (timesRight.bind (timesLeft.bind (Logged.yields_pure _)))
      · have joined := weightedSum_append leftLength right.points (weights.drop left.size)
        rw [List.take_append_drop] at joined
        rw [Poly.toPolynomial_add, productA, productB, first, second,
          wellLeft.toPolynomial_product, wellRight.toPolynomial_product, points, joined]
        rfl

end PointTree

namespace Poly

/-- The polynomial takes the values at the points, and it is zero or its degree is below their
number.
-/
structure Interpolates (points values : List F) (p : Poly F) : Prop where
  small : p = zero ∨ p.degree < points.length
  values : points.map p.eval = values

theorem interpolates_iff (points values : List F) (p : Poly F)
    : Interpolates points values p
      ↔ p.toPolynomial.degree < points.length ∧ points.map p.toPolynomial.eval = values := by
  have horner : points.map p.toPolynomial.eval = points.map p.eval :=
    List.map_congr_left fun point _ => (eval_eq p point).symm
  rw [degree_toPolynomial_lt_iff, horner]
  exact ⟨fun found => ⟨found.small, found.values⟩, fun both => ⟨both.1, both.2⟩⟩

theorem Interpolates.unique {points values : List F} {p q : Poly F} (distinct : points.Nodup)
    (first : Interpolates points values p) (second : Interpolates points values q)
    : p = q := by
  obtain ⟨smallP, valuesP⟩ := (interpolates_iff points values p).mp first
  obtain ⟨smallQ, valuesQ⟩ := (interpolates_iff points values q).mp second
  exact toPolynomial_injective
    (eq_of_eval_eq distinct smallP smallQ (valuesP.trans valuesQ.symm))

end Poly

namespace ProductTree

/-- Where no slope vanishes no point can be repeated. -/
theorem suspects_eq_nil (points : List F) {slopes : List F} (nonzero : ∀ slope ∈ slopes, slope ≠ 0)
    : suspects points slopes = [] := by
  rw [suspects, List.filterMap_eq_nil_iff]
  rintro ⟨⟨point, slope⟩, position⟩ member
  have inside : (point, slope) ∈ points.zip slopes :=
    (List.mem_zipIdx' member).2 ▸ List.getElem_mem _
  have slopeNonzero := nonzero slope (List.of_mem_zip inside).2
  simp [(LawfulRing.isZero_eq_false_iff slope).mpr slopeNonzero]

/-- Where no slope vanishes there is a weight for every value, by induction on the slopes. -/
theorem weights_eq_ok (position : Nat) {slopes : List F} (nonzero : ∀ slope ∈ slopes, slope ≠ 0)
    (values : List F)
    : weights position slopes values
      = .ok (List.zipWith (fun slope value => value * slope⁻¹) slopes values) := by
  induction slopes generalizing position values with
  | nil => rfl
  | cons slope slopes ih =>
      cases values with
      | nil => rfl
      | cons value values =>
          obtain ⟨here, later⟩ := List.forall_mem_cons.mp nonzero
          rw [weights, LawfulField.inv?_eq_some here, ih (position + 1) later]
          rfl

/-- A tree over distinct points yields the polynomial through any values. -/
theorem WellFormed.exists_interpolate_yields [DecidableEq F] {tree : ProductTree F}
    (wellFormed : tree.WellFormed) (nonempty : tree.points ≠ []) (distinct : tree.points.Nodup)
    {values : List F} (length : values.length = tree.points.length)
    : ∃ p, (tree.interpolate values).Yields p ∧ Poly.Interpolates tree.points values p := by
  obtain ⟨points, config, root⟩ := tree
  cases root with
  | none => exact absurd wellFormed nonempty
  | some root =>
      have evaluates := wellFormed.evaluate_yields root.product.derivative
      obtain ⟨rfl, wellRoot⟩ := wellFormed
      have slopes := wellRoot.map_eval_derivative
      have nonzero : ∀ slope ∈ root.points.map (derivative (rootProduct root.points)).eval,
          slope ≠ 0 := by
        intro slope member
        obtain ⟨point, inside, rfl⟩ := List.mem_map.mp member
        exact eval_derivative_rootProduct_ne_zero distinct inside
      obtain ⟨p, combines, sum⟩ :=
        wellRoot.exists_combine_yields config (length_weightsFor length)
      refine ⟨p, ?_, (Poly.interpolates_iff _ _ p).mpr ⟨?_, ?_⟩⟩
      · -- The slopes that the tree evaluates are those the weights divide by, and none is zero.
        simp only [slopes] at evaluates
        simp only [interpolate, length, ne_eq, not_true_eq_false, if_false]
        refine evaluates.bind ?_
        rw [suspects_eq_nil root.points nonzero]
        simp only [firstRepeat?, weights_eq_ok 0 nonzero values]
        exact Logged.Yields.bind (Logged.yields_pure _) combines
      · rw [sum]
        exact degree_weightedSum_lt _ _
      · rw [sum]
        exact map_eval_weightedSum distinct length

/-- A tree that is built for the occasion yields the polynomial through the values. -/
theorem exists_build_interpolate_yields [DecidableEq F] {points : List F} (nonempty : points ≠ [])
    (distinct : points.Nodup) {values : List F} (length : values.length = points.length)
    (config : TreeConfig)
    : ∃ p, (build points config >>= (·.interpolate values)).Yields p
        ∧ Poly.Interpolates points values p := by
  obtain ⟨tree, yields, rfl, wellFormed⟩ := exists_build_yields points config
  obtain ⟨p, interpolates, found⟩ := wellFormed.exists_interpolate_yields nonempty distinct length
  exact ⟨p, yields.bind interpolates, found⟩

end ProductTree

namespace Poly

/-- As many values as points go to the tree. -/
theorem interpolateWith_eq {F : Type} [KernelField F] [DecidableEq F] {points values : List F}
    (nonempty : points ≠ []) (length : values.length = points.length) (config : TreeConfig)
    : interpolateWith points values config
      = ProductTree.build points config >>= (·.interpolate values) := by
  rw [interpolateWith, if_neg (by simpa using nonempty), if_neg (by simpa using length.symm)]

/-- The values of a polynomial of low degree lead back to it. -/
theorem evaluate_interpolate_yields [DecidableEq F] {points : List F} (nonempty : points ≠ [])
    (distinct : points.Nodup) (config : TreeConfig) {p : Poly F}
    (small : p = zero ∨ p.degree < points.length)
    : (interpolateWith points (points.map p.eval) config).Yields p := by
  have length : (points.map p.eval).length = points.length := List.length_map _
  obtain ⟨q, yields, found⟩ :=
    ProductTree.exists_build_interpolate_yields nonempty distinct length config
  have same : q = p := found.unique distinct ⟨small, rfl⟩
  rw [interpolateWith_eq nonempty length]
  exact same ▸ yields

/-- Over distinct points there is exactly one polynomial through any values whose degree is below
the number of points, and all ways of interpolation yield it, for all thresholds, the one that reads
the weights at the places of the nodes included. So interpolation leads from the values of such a
polynomial back to it, and evaluation from the polynomial back to the values.
-/
theorem interpolate_exact {F : Type} [KernelField F] [LibraryField F] [DecidableEq F]
    {points : List F} (nonempty : points ≠ []) (distinct : points.Nodup) (config : TreeConfig)
    : (∀ values : List F, values.length = points.length
          → ∃ p, (interpolateWith points values config).Yields p
              ∧ (ProductTree.build points config >>= (·.interpolate values)).Yields p
              ∧ (PlacedTree.build points config >>= (·.interpolate values)).Yields (some p)
              ∧ Interpolates points values p
              ∧ ∀ q, Interpolates points values q → q = p)
      ∧ (∀ p : Poly F, p = zero ∨ p.degree < points.length
          → (p.evaluate points >>= fun values => interpolate points values).Yields p)
      ∧ (∀ values : List F, values.length = points.length
          → (interpolate points values >>= fun p => p.evaluate points).Yields values) := by
  refine ⟨?_, ?_, ?_⟩
  · intro values length
    obtain ⟨p, yields, found⟩ :=
      ProductTree.exists_build_interpolate_yields nonempty distinct length config
    refine ⟨p, ?_, yields, ?_, found, fun q other => other.unique distinct found⟩
    · rw [interpolateWith_eq nonempty length]
      exact yields
    · rw [PlacedTree.build_interpolate_eq]
      exact yields.map some
  · intro p small
    exact (evaluateWith_yields p points .standard).bind
      (evaluate_interpolate_yields nonempty distinct .standard small)
  · intro values length
    obtain ⟨p, yields, found⟩ :=
      ProductTree.exists_build_interpolate_yields nonempty distinct length .standard
    rw [interpolate, interpolateWith_eq nonempty length]
    have evaluates := evaluateWith_yields p points .standard
    rw [found.values] at evaluates
    exact yields.bind evaluates

theorem interpolate_exact_seventeen
    : ([3, 5, 4] : List (Residue Modulus.seventeen)) ≠ []
      ∧ ([3, 5, 4] : List (Residue Modulus.seventeen)).Nodup
      ∧ ([9, 8, 16] : List (Residue Modulus.seventeen)).length
        = ([3, 5, 4] : List (Residue Modulus.seventeen)).length
      ∧ (interpolateWith [3, 5, 4] [9, 8, 16] ⟨0, 0⟩).Yields
          (monomial (1 : Residue Modulus.seventeen) 2)
      ∧ (ProductTree.build [3, 5, 4] ⟨0, 0⟩ >>= (·.interpolate [9, 8, 16])).Yields
          (monomial (1 : Residue Modulus.seventeen) 2)
      ∧ (PlacedTree.build [3, 5, 4] ⟨0, 0⟩ >>= (·.interpolate [9, 8, 16])).Yields
          (some (monomial (1 : Residue Modulus.seventeen) 2))
      ∧ ((monomial (1 : Residue Modulus.seventeen) 2).evaluate [3, 5, 4]
          >>= fun values => interpolate [3, 5, 4] values).Yields (monomial 1 2)
      ∧ (interpolate [3, 5, 4] ([9, 8, 16] : List (Residue Modulus.seventeen))
          >>= fun p => p.evaluate [3, 5, 4]).Yields [9, 8, 16] := by
  have nonempty : ([3, 5, 4] : List (Residue Modulus.seventeen)) ≠ [] := by decide
  have distinct : ([3, 5, 4] : List (Residue Modulus.seventeen)).Nodup := by decide
  have length : ([9, 8, 16] : List (Residue Modulus.seventeen)).length
      = ([3, 5, 4] : List (Residue Modulus.seventeen)).length := by
    simp only [List.length_cons, List.length_nil]
  have small : monomial (1 : Residue Modulus.seventeen) 2 = zero
      ∨ (monomial (1 : Residue Modulus.seventeen) 2).degree < 3 := by decide
  have square : Interpolates [3, 5, 4] [9, 8, 16]
      (monomial (1 : Residue Modulus.seventeen) 2) := ⟨small, by decide⟩
  obtain ⟨finds, fromValues, fromPolynomial⟩ := interpolate_exact nonempty distinct ⟨0, 0⟩
  obtain ⟨p, direct, tree, places, _, unique⟩ := finds [9, 8, 16] length
  obtain rfl := unique _ square
  exact ⟨nonempty, distinct, length, direct, tree, places, fromValues _ small,
    fromPolynomial _ length⟩

end Poly

end FastAlgebra
