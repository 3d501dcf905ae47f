import FastAlgebra.ProductTree

/-! The product tree with the places of its nodes. Each node knows where its points start in the
list and how many they are, and it is at these places that evaluation reads the points and
interpolation the weights. There is no result if a place is missing.
-/

namespace FastAlgebra

/-- A product of `x - x_i` with the place of its points in a list. -/
structure Span (F : Type) [CoeffRing F] where
  product : Poly F
  start : Nat
  length : Nat

/-- The entries at a place, if the list reaches that far. -/
def Span.entries? {F : Type} [CoeffRing F] (span : Span F) (a : List F) : Option (List F) :=
  if span.start + span.length ≤ a.length then
    some ((a.drop span.start).take span.length)
  else
    none

/-- A node with its two children, if it has any. -/
inductive SpanTree (F : Type) [CoeffRing F] where
  | leaf (span : Span F)
  | node (span : Span F) (left right : SpanTree F)

namespace SpanTree

variable {F : Type} [KernelField F]

def span : SpanTree F → Span F
  | .leaf span => span
  | .node span _ _ => span

/-- The node itself and all nodes below it. -/
def nodes : SpanTree F → List (SpanTree F)
  | .leaf span => [.leaf span]
  | .node span left right => .node span left right :: (left.nodes ++ right.nodes)

/-- The tree over a list of points that is not empty and that starts at a place of a longer one. -/
def build (config : TreeConfig) (start : Nat) (points : List F) (nonempty : points ≠ [])
    : Kernel (SpanTree F) :=
  match points with
  | [] => (nonempty rfl).elim
  | [point] => pure (.leaf ⟨Poly.linear point, start, 1⟩)
  | first :: second :: rest => do
      let all := first :: second :: rest
      let mid := all.length / 2
      let (left, right) ← Logged.both (config.splits all.length)
        (fun _ => build config start (all.take mid) (by simp [all, mid]))
        (fun _ => build config (start + mid) (all.drop mid) (by
          have : mid < all.length := Nat.div_lt_self (by simp [all]) (by omega)
          simpa using this))
      pure (.node ⟨← left.span.product.mul right.span.product, start, all.length⟩ left right)
termination_by points.length
decreasing_by
  all_goals
    simp only [List.length_take, List.length_drop, List.length_cons]
    omega

/-- The values of a polynomial at the points of a node. Both children read the whole list of points.
-/
def evaluate (config : TreeConfig) (points : List F) (p : Poly F)
    : SpanTree F → Kernel (Option (List F))
  | .leaf span =>
      if span.length < config.hornerThreshold then
        pure ((span.entries? points).map (·.map p.eval))
      else do
        let rest ← p.remainder span.product
        pure (some [rest.coeff 0])
  | .node span left right =>
      if span.length < config.hornerThreshold then
        pure ((span.entries? points).map (·.map p.eval))
      else do
        let rest ← p.remainder span.product
        let (first, second) ← Logged.both (config.splits span.length)
          (fun _ => left.evaluate config points rest) (fun _ => right.evaluate config points rest)
        match first, second with
        | some first, some second => pure (some (first ++ second))
        | _, _ => pure none

/-- The weighted sum over the points of a node. Both children read the whole list of weights. -/
def combine (config : TreeConfig) (weights : List F) : SpanTree F → Kernel (Option (Poly F))
  | .leaf span => pure (weights[span.start]?.map Poly.constant)
  | .node span left right => do
      let (first, second) ← Logged.both (config.splits span.length)
        (fun _ => left.combine config weights) (fun _ => right.combine config weights)
      match first, second with
      | some first, some second => do
          let a ← first.mul right.span.product
          let b ← second.mul left.span.product
          pure (some (a.add b))
      | _, _ => pure none

end SpanTree

/-- A list of points with its tree, a single node if there are none. -/
structure PlacedTree (F : Type) [CoeffRing F] where
  points : List F
  config : TreeConfig
  root : SpanTree F

namespace PlacedTree

variable {F : Type} [KernelField F]

def build (points : List F) (config : TreeConfig) : Kernel (PlacedTree F) := do
  Logged.emit (.treeStarted points.length)
  match points with
  | [] => pure ⟨[], config, .leaf ⟨Poly.one, 0, 0⟩⟩
  | first :: rest =>
      let root ← SpanTree.build config 0 (first :: rest) (List.cons_ne_nil first rest)
      pure ⟨first :: rest, config, root⟩

/-- The product of `x - x_i` over all points. -/
def product (tree : PlacedTree F) : Poly F :=
  tree.root.span.product

def evaluate (tree : PlacedTree F) (p : Poly F) : Kernel (Option (List F)) :=
  if tree.points.isEmpty then
    pure (some [])
  else
    tree.root.evaluate tree.config tree.points p

/-- The polynomial of degree below the number of points that takes the given values at them. -/
def interpolate [DecidableEq F] (tree : PlacedTree F) (values : List F)
    : Kernel (Option (Poly F)) :=
  if tree.points.isEmpty then
    Logged.refuse .emptyInterpolation
  else if values.length ≠ tree.points.length then
    Logged.refuse (.lengthMismatch tree.points.length values.length)
  else do
    match ← tree.evaluate tree.product.derivative with
    | none => pure none
    | some slopes =>
        match ProductTree.firstRepeat? [] (ProductTree.suspects tree.points slopes) with
        | some position => Logged.refuse (.duplicateNode position)
        | none => do
            let weights ← Logged.ofResult (ProductTree.weights 0 slopes values)
            tree.root.combine tree.config weights

end PlacedTree

end FastAlgebra
