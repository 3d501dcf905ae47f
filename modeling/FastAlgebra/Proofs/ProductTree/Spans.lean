import Mathlib
import FastAlgebra.ProductTree.Spans
import FastAlgebra.Proofs.ProductTree
import FastAlgebra.Proofs.RootProduct

/-! The places of the nodes of a product tree. The points of a node stand in the list where the node
says, its children share them without gap or overlap, and what is read at these places is what the
tree without places hands down. So no place is missing when a polynomial is evaluated.
-/

namespace FastAlgebra

open Polynomial

-----------------------------------------------------------------------------------------
-- Products over points
-----------------------------------------------------------------------------------------

variable {F : Type} [KernelField F] [ExactKernels F]

namespace Poly

variable {p : Poly F} {points : List F}

theorem degree_of_rootProduct (product : p.toPolynomial = rootProduct points)
    : p.degree = points.length := by
  rw [← natDegree_toPolynomial, product]
  exact natDegree_eq_of_degree_eq_some (degree_rootProduct points)

theorem lead_of_rootProduct (product : p.toPolynomial = rootProduct points) : p.lead = 1 := by
  rw [← coeff_degree, ← coeff_toPolynomial, ← natDegree_toPolynomial, product]
  exact monic_rootProduct points

end Poly

-----------------------------------------------------------------------------------------
-- The nodes
-----------------------------------------------------------------------------------------

/-- The place lies within the list, and the product runs over the entries there. -/
structure Span.Covers (span : Span F) (points : List F) : Prop where
  within : span.start + span.length ≤ points.length
  product
    : span.product.toPolynomial
      = (((points.drop span.start).take span.length).map fun point => X - C point).prod
  monic : span.product.lead = 1
  degree : span.product.degree = span.length

theorem Span.within_of_placed {F : Type} [KernelField F] (span : Span F) {own points : List F}
    (nonempty : own ≠ []) (length : span.length = own.length)
    (placed : own <+: points.drop span.start)
    : span.start + span.length ≤ points.length := by
  have inside := placed.length_le
  have positive := List.length_pos_iff.mpr nonempty
  rw [List.length_drop] at inside
  omega

theorem Span.covers_of_product {span : Span F} {own points : List F} (nonempty : own ≠ [])
    (placed : own <+: points.drop span.start) (length : span.length = own.length)
    (product : span.product.toPolynomial = rootProduct own)
    : span.Covers points where
  within := span.within_of_placed nonempty length placed
  product := by
    rw [length, ← List.prefix_iff_eq_take.mp placed]
    exact product
  monic := Poly.lead_of_rootProduct product
  degree := (Poly.degree_of_rootProduct product).trans length.symm

namespace SpanTree

/-- The children of a node halve its place, the left one taking the smaller part, and none of them
is empty. A node without children has a single point.
-/
def Halved : SpanTree F → Prop
  | .leaf span => span.length = 1
  | .node span left right =>
      0 < left.span.length
      ∧ 0 < right.span.length
      ∧ left.span.start = span.start
      ∧ left.span.length = span.length / 2
      ∧ right.span.start = span.start + span.length / 2
      ∧ left.span.length + right.span.length = span.length

/-- Building covers the points wherever they stand, by induction along the halving: the right half
stands as many places further as there are points on the left.
-/
theorem exists_build_yields (config : TreeConfig) {all : List F} (start : Nat) (points : List F)
    (nonempty : points ≠ []) (placed : points <+: all.drop start)
    : ∃ tree, (build config start points nonempty).Yields tree
        ∧ tree.span.start = start
        ∧ tree.span.length = points.length
        ∧ tree.span.product.toPolynomial = rootProduct points
        ∧ ∀ node ∈ tree.nodes, node.span.Covers all ∧ node.Halved := by
  induction start, points, nonempty using build.induct with
  | case1 start point =>
      have product : (Poly.linear point).toPolynomial = rootProduct [point] := by
        rw [Poly.toPolynomial_linear, rootProduct, List.map_singleton, List.prod_singleton]
      rw [build]
      refine ⟨.leaf ⟨Poly.linear point, start, 1⟩, Logged.yields_pure _, rfl, rfl, product, ?_⟩
      intro node member
      obtain rfl := List.mem_singleton.mp member
      exact ⟨Span.covers_of_product (List.cons_ne_nil point []) placed rfl product, rfl⟩
  | case2 start first second rest nonempty points mid _ ihl ihr =>
      have length : points.length = rest.length + 2 := rfl
      have above : (all.drop start).drop mid = all.drop (start + mid) := List.drop_drop
      obtain ⟨left, yieldsLeft, startLeft, lengthLeft, productLeft, below⟩ :=
        ihl ((List.take_prefix mid points).trans placed)
      obtain ⟨right, yieldsRight, startRight, lengthRight, productRight, beyond⟩ :=
        ihr (above ▸ placed.drop mid)
      obtain ⟨product, yields, halves⟩ :=
        Poly.exists_mul_yields left.span.product right.span.product
      rw [productLeft, productRight, ← rootProduct_append, List.take_append_drop] at halves
      have smaller : mid ≤ points.length := Nat.div_le_self points.length 2
      rw [List.length_take, Nat.min_eq_left smaller] at lengthLeft
      rw [List.length_drop] at lengthRight
      refine ⟨.node ⟨product, start, points.length⟩ left right, ?_, rfl, rfl, halves, ?_⟩
      · rw [build]
        exact (Logged.Yields.both yieldsLeft yieldsRight).bind
          (yields.bind (Logged.yields_pure _))
      · intro node member
        rcases List.mem_cons.mp member with rfl | member
        · refine ⟨Span.covers_of_product nonempty placed rfl halves, ?_⟩
          refine ⟨?_, ?_, startLeft, lengthLeft, startRight, ?_⟩
          · omega
          · omega
          · exact lengthLeft ▸ lengthRight ▸ Nat.add_sub_of_le smaller
        · rcases List.mem_append.mp member with member | member
          · exact below node member
          · exact beyond node member

end SpanTree

-----------------------------------------------------------------------------------------
-- What is read at the places
-----------------------------------------------------------------------------------------

theorem Span.entries?_eq {F : Type} [KernelField F] {span : Span F} {own all : List F}
    (nonempty : own ≠ []) (length : span.length = own.length) (placed : own <+: all.drop span.start)
    : span.entries? all = some own := by
  rw [entries?, if_pos (span.within_of_placed nonempty length placed), length,
    ← List.prefix_iff_eq_take.mp placed]

namespace PointTree

/-- The places of a tree whose points stand one after another from `start` on. -/
def placed {F : Type} [KernelField F] (start : Nat) : PointTree F → SpanTree F
  | .leaf point => .leaf ⟨Poly.linear point, start, 1⟩
  | .node product left right =>
      .node ⟨product, start, left.size + right.size⟩ (left.placed start)
        (right.placed (start + left.size))

variable {F : Type} [KernelField F]

@[simp]
theorem span_placed (tree : PointTree F) (start : Nat)
    : (tree.placed start).span = ⟨tree.product, start, tree.size⟩ := by
  cases tree <;> rfl

theorem entries?_placed {tree : PointTree F} {start : Nat} {all : List F}
    (stand : tree.points <+: all.drop start)
    : (tree.placed start).span.entries? all = some tree.points := by
  rw [span_placed]
  exact Span.entries?_eq tree.points_ne_nil tree.size_eq stand

/-- Evaluation at the places finds the values at the points, by induction on the tree. -/
theorem evaluate_placed {tree : PointTree F} {start : Nat} {all : List F}
    (stand : tree.points <+: all.drop start) (config : TreeConfig) (p : Poly F)
    : (tree.placed start).evaluate config all p = some <$> tree.evaluate config p := by
  have own := entries?_placed stand
  induction tree generalizing start p with
  | leaf point =>
      simp only [placed, SpanTree.span] at own
      simp only [placed, SpanTree.evaluate, own, evaluate]
      split
      · rfl
      · simp only [map_bind]
        rfl
  | node product left right ihl ihr =>
      have standLeft : left.points <+: all.drop start :=
        (List.prefix_append left.points right.points).trans stand
      have standRight : right.points <+: all.drop (start + left.size) := by
        have dropped := stand.drop left.size
        rwa [points, left.size_eq, List.drop_left, List.drop_drop, ← left.size_eq] at dropped
      simp only [placed, SpanTree.span] at own
      simp only [placed, SpanTree.evaluate, own, evaluate]
      split
      · rfl
      · simp only [Logged.both_eq, ihl standLeft _ (entries?_placed standLeft),
          ihr standRight _ (entries?_placed standRight), map_eq_pure_bind, bind_assoc, pure_bind]

/-- Combining at the places finds the weights of the points, by induction on the tree. -/
theorem combine_placed {tree : PointTree F} {start : Nat} {own all : List F}
    (length : own.length = tree.size) (stand : own <+: all.drop start) (config : TreeConfig)
    : (tree.placed start).combine config all = some <$> tree.combine config own := by
  induction tree generalizing start own with
  | leaf point =>
      obtain ⟨weight, rfl⟩ := List.length_eq_one_iff.mp length
      obtain ⟨rest, front⟩ := stand
      have here : (all.drop start)[0]? = all[start]? := List.getElem?_drop
      rw [← front] at here
      rw [placed, SpanTree.combine, ← here]
      rfl
  | node product left right ihl ihr =>
      have shorter : (own.take left.size).length = left.size := by
        rw [List.length_take, length, size]
        omega
      have longer : (own.drop left.size).length = right.size := by
        rw [List.length_drop, length, size]
        omega
      have standRight := stand.drop left.size
      rw [List.drop_drop] at standRight
      simp only [placed, SpanTree.combine, combine, Logged.both_eq, span_placed,
        ihl shorter ((List.take_prefix _ own).trans stand), ihr longer standRight,
        map_eq_pure_bind, bind_assoc, pure_bind]

theorem size_of_build_yields [ExactKernels F] {config : TreeConfig} {points : List F}
    {nonempty : points ≠ []} {tree : PointTree F}
    (yields : (build config points nonempty).Yields tree)
    : tree.size = points.length := by
  obtain ⟨built, same, placed, _⟩ := exists_build_yields config points nonempty
  rw [yields.unique same, size_eq, placed]

end PointTree

/-- The tree with places is the tree without them whose points stand one after another. -/
theorem SpanTree.build_eq (config : TreeConfig) (start : Nat) (points : List F)
    (nonempty : points ≠ [])
    : build config start points nonempty
      = PointTree.placed start <$> PointTree.build config points nonempty := by
  induction start, points, nonempty using build.induct with
  | case1 start point =>
      rw [build, PointTree.build]
      rfl
  | case2 start first second rest nonempty points mid _ ihl ihr =>
      rw [build, PointTree.build]
      simp only [Logged.both_eq, map_eq_pure_bind, bind_assoc, pure_bind]
      rw [ihl, ihr]
      simp only [map_eq_pure_bind, bind_assoc, pure_bind]
      apply Logged.bind_congr_of_yields
      intro left yieldsLeft
      apply Logged.bind_congr_of_yields
      intro right yieldsRight
      have sizeLeft := PointTree.size_of_build_yields yieldsLeft
      have sizeRight := PointTree.size_of_build_yields yieldsRight
      rw [List.length_take, Nat.min_eq_left (Nat.div_le_self points.length 2)] at sizeLeft
      rw [List.length_drop] at sizeRight
      have whole : left.size + right.size = points.length := by
        rw [sizeLeft, sizeRight, Nat.add_sub_of_le (Nat.div_le_self points.length 2)]
      simp only [PointTree.span_placed, PointTree.placed]
      rw [whole, sizeLeft]

/-- There is a weight for each slope and value. -/
theorem ProductTree.length_weights {F : Type} [KernelField F] {position : Nat}
    {slopes values own : List F} (found : weights position slopes values = .ok own)
    : own.length = min slopes.length values.length := by
  induction slopes generalizing position values own with
  | nil =>
      obtain rfl := Except.ok.inj found
      exact (Nat.zero_min _).symm
  | cons slope slopes ih =>
      cases values with
      | nil =>
          obtain rfl := Except.ok.inj found
          rfl
      | cons value values =>
          cases invertible : CoeffField.inv? slope with
          | none =>
              rw [weights, invertible] at found
              cases found
          | some inverse =>
              cases later : weights (position + 1) slopes values with
              | error error =>
                  rw [weights, invertible, later] at found
                  cases found
              | ok rest =>
                  rw [weights, invertible, later] at found
                  obtain rfl := Except.ok.inj found
                  simp only [List.length_cons, ih later]
                  omega

namespace PlacedTree

/-- A tree with the places of its nodes. -/
def ofTree {F : Type} [KernelField F] (tree : ProductTree F) : PlacedTree F where
  points := tree.points
  config := tree.config
  root :=
    match tree.root with
    | some root => root.placed 0
    | none => .leaf ⟨Poly.one, 0, 0⟩

theorem build_eq (points : List F) (config : TreeConfig)
    : build points config = ofTree <$> ProductTree.build points config := by
  cases points with
  | nil => rfl
  | cons first rest =>
      simp only [build, ProductTree.build, SpanTree.build_eq, map_eq_pure_bind, bind_assoc,
        pure_bind]
      rfl

theorem product_ofTree {F : Type} [KernelField F] (tree : ProductTree F)
    : (ofTree tree).product = tree.product := by
  obtain ⟨points, config, root⟩ := tree
  cases root with
  | none => rfl
  | some root => exact congrArg Span.product (root.span_placed 0)

/-- What the tree reads at the places are the values that the tree without places hands down. -/
theorem evaluate_ofTree {tree : ProductTree F} (wellFormed : tree.WellFormed) (p : Poly F)
    : (ofTree tree).evaluate p = some <$> tree.evaluate p := by
  obtain ⟨points, config, root⟩ := tree
  cases root with
  | none =>
      obtain rfl : points = [] := wellFormed
      rfl
  | some root =>
      obtain ⟨rfl, _⟩ := wellFormed
      rw [evaluate, if_neg (by simpa [ofTree] using root.points_ne_nil)]
      exact PointTree.evaluate_placed (List.prefix_rfl) config p

/-- The weights that the tree reads at the places are those that the tree without places hands down.
-/
theorem interpolate_ofTree [DecidableEq F] {tree : ProductTree F} (wellFormed : tree.WellFormed)
    (values : List F)
    : (ofTree tree).interpolate values = some <$> tree.interpolate values := by
  have evaluates := evaluate_ofTree wellFormed
  have slopesYield := wellFormed.evaluate_yields tree.product.derivative
  obtain ⟨points, config, root⟩ := tree
  cases root with
  | none =>
      obtain rfl : points = [] := wellFormed
      rfl
  | some root =>
      obtain ⟨rfl, _⟩ := wellFormed
      have nonempty : ¬ (ofTree ⟨root.points, config, some root⟩).points.isEmpty = true := by
        simpa [ofTree] using root.points_ne_nil
      rw [interpolate, if_neg nonempty, ProductTree.interpolate, product_ofTree]
      change (if values.length ≠ root.points.length then _ else _)
        = some <$> (if values.length ≠ root.points.length then _ else _)
      by_cases length : values.length = root.points.length
      · rw [if_neg (not_not_intro length), if_neg (not_not_intro length), evaluates, map_bind,
          bind_map_left]
        apply Logged.bind_congr_of_yields
        intro slopes yields
        have lengthSlopes : slopes.length = root.points.length := by
          rw [yields.unique slopesYield, List.length_map]
        simp only [ofTree]
        cases ProductTree.firstRepeat? [] (ProductTree.suspects root.points slopes) with
        | some position => rfl
        | none =>
            simp only [map_bind]
            apply Logged.bind_congr_of_yields
            intro weights found
            have count := ProductTree.length_weights ((Logged.yields_ofResult_iff _ _).mp found)
            rw [lengthSlopes, length, min_self, ← root.size_eq] at count
            exact PointTree.combine_placed count List.prefix_rfl config
      · rw [if_pos length, if_pos length]
        rfl

/-- Where both trees do the same over any points, it does not matter which of them is built. -/
theorem build_bind_eq {α : Type} {places : PlacedTree F → Kernel (Option α)}
    {direct : ProductTree F → Kernel α}
    (same : ∀ tree : ProductTree F, tree.WellFormed → places (ofTree tree) = some <$> direct tree)
    (points : List F) (config : TreeConfig)
    : (build points config >>= places)
      = some <$> (ProductTree.build points config >>= direct) := by
  obtain ⟨built, yields, _, wellFormed⟩ := ProductTree.exists_build_yields points config
  rw [build_eq, bind_map_left, map_bind]
  apply Logged.bind_congr_of_yields
  intro tree found
  obtain rfl := found.unique yields
  exact same tree wellFormed

theorem build_evaluate_eq (points : List F) (config : TreeConfig) (p : Poly F)
    : (build points config >>= (·.evaluate p))
      = some <$> (ProductTree.build points config >>= (·.evaluate p)) :=
  build_bind_eq (fun _ wellFormed => evaluate_ofTree wellFormed p) points config

theorem build_interpolate_eq [DecidableEq F] (points values : List F) (config : TreeConfig)
    : (build points config >>= (·.interpolate values))
      = some <$> (ProductTree.build points config >>= (·.interpolate values)) :=
  build_bind_eq (fun _ wellFormed => interpolate_ofTree wellFormed values) points config

theorem exists_build_yields (points : List F) (config : TreeConfig)
    : ∃ tree, (build points config).Yields tree
        ∧ tree.points = points
        ∧ tree.root.span.start = 0
        ∧ tree.root.span.length = points.length
        ∧ tree.product.toPolynomial = rootProduct points
        ∧ (∀ node ∈ tree.root.nodes, node.span.Covers points)
        ∧ (points ≠ [] → ∀ node ∈ tree.root.nodes, node.Halved)
        ∧ (points = [] → tree.root = .leaf ⟨Poly.one, 0, 0⟩) := by
  cases points with
  | nil =>
      have product : (Poly.one : Poly F).toPolynomial = rootProduct [] := Poly.toPolynomial_one
      refine ⟨⟨[], config, .leaf ⟨Poly.one, 0, 0⟩⟩,
        (Logged.yields_emit _).bind (Logged.yields_pure _), rfl, rfl, rfl, product, ?_,
        fun absent => absurd rfl absent, fun _ => rfl⟩
      intro node member
      obtain rfl := List.mem_singleton.mp member
      exact ⟨Nat.le_refl 0, product, Poly.lead_of_rootProduct product,
        Poly.degree_of_rootProduct product⟩
  | cons first rest =>
      obtain ⟨root, yields, start, length, product, nodes⟩ :=
        SpanTree.exists_build_yields config 0 (first :: rest) (List.cons_ne_nil first rest)
          List.prefix_rfl
      exact ⟨⟨first :: rest, config, root⟩,
        (Logged.yields_emit _).bind (yields.bind (Logged.yields_pure _)), rfl, start, length,
        product, fun node member => (nodes node member).1,
        fun _ node member => (nodes node member).2,
        fun empty => absurd empty (List.cons_ne_nil first rest)⟩

/-- For all points and thresholds there is a tree. The product of each of its nodes runs over the
points at the place of the node, the children of a node halve its place, and a node without children
has a single point, or none if there are no points at all. The root has all points, so that they are
the zeros of its product, which does not depend on the thresholds.
-/
theorem build_covers {F : Type} [KernelField F] [LibraryField F] (points : List F)
    (config : TreeConfig)
    : ∃ tree,
        (build points config).Yields tree
        ∧ tree.points = points
        ∧ tree.root.span.start = 0
        ∧ tree.root.span.length = points.length
        ∧ (∀ node ∈ tree.root.nodes, node.span.Covers points)
        ∧ (points ≠ [] → ∀ node ∈ tree.root.nodes, node.Halved)
        ∧ (points = [] → tree.root = .leaf ⟨Poly.one, 0, 0⟩)
        ∧ (ProductTree.product <$> ProductTree.build points config).Yields tree.product
        ∧ (Poly.fromRoots points).Yields tree.product
        ∧ tree.product.toPolynomial = (points.map fun point => X - C point).prod
        ∧ tree.product.toPolynomial.roots = points
        ∧ ∀ x, tree.product.eval x = 0 ↔ x ∈ points := by
  have unplaced (config : TreeConfig)
      : ProductTree.product <$> ProductTree.build points config
        = product <$> build points config := by
    rw [build_eq]
    simp only [map_eq_pure_bind, bind_assoc, pure_bind, product_ofTree]
  obtain ⟨tree, yields, same, start, length, product, covers, halved, single⟩ :=
    exists_build_yields points config
  obtain ⟨usual, yieldsUsual, _, _, _, productUsual, _⟩ :=
    exists_build_yields points TreeConfig.standard
  have independent : usual.product = tree.product :=
    Poly.toPolynomial_injective (productUsual.trans product.symm)
  refine ⟨tree, yields, same, start, length, covers, halved, single, ?_, ?_, product, ?_, ?_⟩
  · rw [unplaced]
    exact yields.map _
  · rw [Poly.fromRoots, unplaced, ← independent]
    exact yieldsUsual.map _
  · rw [product]
    exact roots_rootProduct points
  · intro x
    rw [Poly.eval_eq, product]
    exact eval_rootProduct_eq_zero_iff points x

/-- Three points are halved unevenly, and one of them is repeated. -/
theorem build_covers_seventeen
    : ∃ tree,
        (build ([3, 5, 3] : List (Residue Modulus.seventeen)) ⟨0, 0⟩).Yields tree
        ∧ (∀ node ∈ tree.root.nodes, node.span.Covers [3, 5, 3] ∧ node.Halved)
        ∧ (Poly.fromRoots ([3, 5, 3] : List (Residue Modulus.seventeen))).Yields tree.product
        ∧ tree.product.degree = 3
        ∧ tree.product.eval 5 = 0
        ∧ tree.product.eval 4 ≠ 0 := by
  obtain ⟨tree, yields, _, _, _, covers, halved, _, _, usual, product, _, zeros⟩ :=
    build_covers ([3, 5, 3] : List (Residue Modulus.seventeen)) ⟨0, 0⟩
  refine ⟨tree, yields, fun node member => ⟨covers node member, halved (by decide) node member⟩,
    usual, Poly.degree_of_rootProduct product, (zeros 5).mpr (by decide), ?_⟩
  rw [Ne, zeros 4]
  decide

/-- Without points there is a node with neither children nor a point. -/
theorem not_halved_nil
    : ∃ tree,
        (build ([] : List (Residue Modulus.seventeen)) ⟨0, 0⟩).Yields tree
        ∧ tree.root = .leaf ⟨Poly.one, 0, 0⟩
        ∧ ¬ ∀ node ∈ tree.root.nodes, node.Halved := by
  refine ⟨⟨[], ⟨0, 0⟩, .leaf ⟨Poly.one, 0, 0⟩⟩, rfl, rfl, ?_⟩
  intro halved
  have single := halved (.leaf ⟨Poly.one, 0, 0⟩) (List.mem_singleton_self _)
  exact absurd single Nat.zero_ne_one

end PlacedTree

-----------------------------------------------------------------------------------------
-- Evaluation
-----------------------------------------------------------------------------------------

namespace Poly

/-- All ways of evaluation at many points agree with Horner's rule at each of them, for all
thresholds, and none of them fails. Reading the points at the places of the nodes is one of them, so
no place reaches past the end of the list.
-/
theorem evaluate_exact {F : Type} [KernelField F] [LibraryField F] (p : Poly F)
    (points : List F) (config : TreeConfig)
    : (p.evaluateWith points config).Yields (points.map p.eval)
      ∧ (p.evaluate points).Yields (points.map p.eval)
      ∧ (ProductTree.build points config >>= (·.evaluate p)).Yields (points.map p.eval)
      ∧ (PlacedTree.build points config >>= (·.evaluate p)).Yields
          (some (points.map p.eval)) := by
  have direct := ProductTree.build_evaluate_yields p points config
  refine ⟨evaluateWith_yields p points config, evaluateWith_yields p points .standard, direct, ?_⟩
  rw [PlacedTree.build_evaluate_eq]
  exact direct.map some

theorem evaluate_exact_seventeen
    : ((monomial (1 : Residue Modulus.seventeen) 2).evaluateWith [3, 5, 3] ⟨0, 0⟩).Yields [9, 8, 9]
      ∧ ((monomial (1 : Residue Modulus.seventeen) 2).evaluate [3, 5, 3]).Yields [9, 8, 9]
      ∧ (ProductTree.build [3, 5, 3] ⟨0, 0⟩
          >>= (·.evaluate (monomial (1 : Residue Modulus.seventeen) 2))).Yields [9, 8, 9]
      ∧ (PlacedTree.build [3, 5, 3] ⟨0, 0⟩
          >>= (·.evaluate (monomial (1 : Residue Modulus.seventeen) 2))).Yields
            (some [9, 8, 9]) := by
  have values : [3, 5, 3].map (monomial (1 : Residue Modulus.seventeen) 2).eval = [9, 8, 9] := by
    decide
  rw [← values]
  exact evaluate_exact (monomial 1 2) [3, 5, 3] ⟨0, 0⟩

end Poly

end FastAlgebra
