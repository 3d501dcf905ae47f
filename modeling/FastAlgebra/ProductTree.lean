import FastAlgebra.Poly.Division

/-! Evaluation at many points and interpolation through many points, by the tree of the products
of `x - x_i` over the points. Evaluation pushes remainders down the tree, interpolation pushes
weighted sums up.
-/

namespace FastAlgebra

/-- When the two halves of a tree get a worker of their own, and when remainders give way to
direct evaluation.
-/
structure TreeConfig where
  parallelThreshold : Nat
  hornerThreshold : Nat

namespace TreeConfig

/-- Trees with at least this many points are worth a second worker. -/
def defaultParallelThreshold : Nat :=
  256

/-- Trees with fewer points than this are evaluated directly. -/
def defaultHornerThreshold : Nat :=
  8

/-- The thresholds that are used where the caller names none. -/
def standard : TreeConfig :=
  ⟨defaultParallelThreshold, defaultHornerThreshold⟩

/-- The tree is large enough for a second worker. -/
def splits (config : TreeConfig) (size : Nat) : Bool :=
  config.parallelThreshold ≤ size

end TreeConfig

/-- The points of a tree, halved down to single ones. An inner node keeps the product of its two
halves.
-/
inductive PointTree (F : Type) [CoeffRing F] where
  | leaf (point : F)
  | node (product : Poly F) (left right : PointTree F)

namespace PointTree

variable {F : Type} [KernelField F]

def points : PointTree F → List F
  | .leaf point => [point]
  | .node _ left right => left.points ++ right.points

def size : PointTree F → Nat
  | .leaf _ => 1
  | .node _ left right => left.size + right.size

/-- The product of `x - x_i` over the points. -/
def product : PointTree F → Poly F
  | .leaf point => Poly.linear point
  | .node product _ _ => product

/-- The tree over a list of points that is not empty. The left half takes the smaller part. -/
def build (config : TreeConfig) (points : List F) (nonempty : points ≠ [])
    : Kernel (PointTree F) :=
  match points with
  | [] => (nonempty rfl).elim
  | [point] => pure (.leaf point)
  | first :: second :: rest => do
      let all := first :: second :: rest
      let mid := all.length / 2
      let (left, right) ← Logged.both (config.splits all.length)
        (fun _ => build config (all.take mid) (by simp [all, mid]))
        (fun _ => build config (all.drop mid) (by
          have : mid < all.length := Nat.div_lt_self (by simp [all]) (by omega)
          simpa using this))
      pure (.node (← left.product.mul right.product) left right)
termination_by points.length
decreasing_by
  all_goals
    simp only [List.length_take, List.length_drop, List.length_cons]
    omega

/-- The values of a polynomial at the points. -/
def evaluate (config : TreeConfig) (p : Poly F) : PointTree F → Kernel (List F)
  | .leaf point =>
      if 1 < config.hornerThreshold then
        pure [p.eval point]
      else do
        let rest ← p.remainder (Poly.linear point)
        pure [rest.coeff 0]
  | .node product left right =>
      let size := left.size + right.size
      if size < config.hornerThreshold then
        pure ((left.points ++ right.points).map p.eval)
      else do
        let rest ← p.remainder product
        let (first, second) ← Logged.both (config.splits size)
          (fun _ => left.evaluate config rest) (fun _ => right.evaluate config rest)
        pure (first ++ second)

/-- The sum over the points of a weight times the product of `x - x_j` over the other points. -/
def combine (config : TreeConfig) : PointTree F → (weights : List F) → Kernel (Poly F)
  | .leaf _, weights => pure (Poly.constant (CoeffList.coeff weights 0))
  | .node _ left right, weights => do
      let (first, second) ← Logged.both (config.splits (left.size + right.size))
        (fun _ => left.combine config (weights.take left.size))
        (fun _ => right.combine config (weights.drop left.size))
      let a ← first.mul right.product
      let b ← second.mul left.product
      pure (a.add b)

end PointTree

/-- A list of points with its tree, if there are any. -/
structure ProductTree (F : Type) [CoeffRing F] where
  points : List F
  config : TreeConfig
  root : Option (PointTree F)

namespace ProductTree

variable {F : Type} [KernelField F]

def build (points : List F) (config : TreeConfig) : Kernel (ProductTree F) := do
  Logged.emit (.treeStarted points.length)
  match points with
  | [] => pure ⟨[], config, none⟩
  | first :: rest =>
      let root ← PointTree.build config (first :: rest) (by simp)
      pure ⟨first :: rest, config, some root⟩

/-- The product of `x - x_i` over all points. -/
def product (tree : ProductTree F) : Poly F :=
  match tree.root with
  | some root => root.product
  | none => Poly.one

def evaluate (tree : ProductTree F) (p : Poly F) : Kernel (List F) :=
  match tree.root with
  | some root => root.evaluate tree.config p
  | none => pure []

/-- The position of the first entry that equals an earlier one. -/
def firstRepeat? [DecidableEq F] (seen : List F) : List (F × Nat) → Option Nat
  | [] => none
  | (point, position) :: rest =>
      if point ∈ seen then some position else firstRepeat? (point :: seen) rest

/-- The points where the derivative of the product vanishes, with their positions. Only these
can be repeated.
-/
def suspects (points slopes : List F) : List (F × Nat) :=
  (points.zip slopes).zipIdx.filterMap fun ((point, slope), position) =>
    if CoeffRing.isZero slope then some (point, position) else none

/-- The values over the slopes, from a position on. -/
def weights : (position : Nat) → (slopes values : List F) → Except PolyError (List F)
  | position, slope :: slopes, value :: values =>
      match CoeffField.inv? slope with
      | some inverse => (value * inverse :: ·) <$> weights (position + 1) slopes values
      | none => .error (.duplicateNode position)
  | _, _, _ => .ok []

/-- The polynomial of degree below the number of points that takes the given values at them. The
weight of a point is its value over the derivative of the product there.
-/
def interpolate [DecidableEq F] (tree : ProductTree F) (values : List F)
    : Kernel (Poly F) :=
  match tree.root with
  | none => Logged.refuse .emptyInterpolation
  | some root =>
      if values.length ≠ tree.points.length then
        Logged.refuse (.lengthMismatch tree.points.length values.length)
      else do
        let slopes ← tree.evaluate tree.product.derivative
        match firstRepeat? [] (suspects tree.points slopes) with
        | some position => Logged.refuse (.duplicateNode position)
        | none => do
            let weights ← Logged.ofResult (weights 0 slopes values)
            root.combine tree.config weights

end ProductTree

namespace Poly

variable {F : Type} [KernelField F]

def evaluateWith (p : Poly F) (points : List F) (config : TreeConfig) : Kernel (List F) :=
  if points.length < config.hornerThreshold then
    pure (points.map p.eval)
  else do
    let tree ← ProductTree.build points config
    tree.evaluate p

/-- The values at a list of points, with the usual thresholds. -/
def evaluate (p : Poly F) (points : List F) : Kernel (List F) :=
  p.evaluateWith points .standard

/-- The polynomial of degree below the number of points through points and values. -/
def interpolateWith [DecidableEq F] (points values : List F) (config : TreeConfig)
    : Kernel (Poly F) :=
  if points.isEmpty then
    Logged.refuse .emptyInterpolation
  else if points.length ≠ values.length then
    Logged.refuse (.lengthMismatch points.length values.length)
  else do
    let tree ← ProductTree.build points config
    tree.interpolate values

def interpolate [DecidableEq F] (points values : List F) : Kernel (Poly F) :=
  interpolateWith points values .standard

/-- The product of `x - root` over the roots. -/
def fromRoots (roots : List F) : Kernel (Poly F) :=
  ProductTree.product <$> ProductTree.build roots .standard

end Poly

end FastAlgebra
