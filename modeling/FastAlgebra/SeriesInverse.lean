import FastAlgebra.Transform.Plan
import FastAlgebra.Residue.Inverse

/-! Inverses of power series by Newton's iteration. If `b` inverts `a` to `k` terms, then
`b (2 - a b)` inverts it to `2 k` terms, so each step doubles the precision.
-/

namespace FastAlgebra

/-- A product of coefficient lists, as the iteration may use it. -/
abbrev ListProduct (F : Type) : Type :=
  List F → List F → Kernel (List F)

/-- The start of the iteration: the inverse of the constant term, if it has one. -/
def constantInverse? {F : Type} [CoeffField F] (a : List F) : Option F :=
  a.head?.bind CoeffField.inv?

section Newton

variable {F : Type} [CoeffField F]

/-- Brings an inverse of precision `k` to twice the precision, or to `n` if that is less. -/
def newtonStep (product : ListProduct F) (a : List F) (n : Nat) (b : List F) (k : Nat)
    : Kernel (List F) := do
  let precision := min (2 * k) n
  let unit ← product (a.take precision) b
  let correction := CoeffList.sub [1 + 1] (CoeffList.resize precision unit)
  let next ← product b correction
  Logged.emit (.newtonStep precision)
  pure (next.take precision)

/-- The first `n` coefficients of the inverse of `a`, through any product of lists. -/
def newtonInverse (product : ListProduct F) (a : List F) (n : Nat) : Kernel (List F) :=
  if n = 0 then
    pure []
  else
    match constantInverse? a with
    | some start => (doublings 1 n).foldlM (newtonStep product a n) [start]
    | none => Logged.refuse .notInvertible

end Newton

section Transform

variable {m : Modulus}

/-- Brings an inverse of precision `k` to twice the precision with three transforms of length
`4 k`. The step is formed point by point; what wraps around the transform length lands behind
the new precision.
-/
def transformInverseStep (plan : Plan (Residue m)) (a b : List (Residue m)) (k : Nat)
    : Kernel (List (Residue m)) := do
  let length := 4 * k
  let imageA := plan.transform (CoeffList.resize length (a.take (2 * k)))
  let imageB := plan.transform (CoeffList.resize length b)
  let factor : Residue m := TransformScalar.inverseLength length
  let two : Residue m := Residue.ofNat 2
  let image := List.zipWith (fun x y => x * (two - y * x) * factor) imageB imageA
  Logged.emit (.transformInverseStep (2 * k))
  pure ((plan.transform (reflect image)).take (2 * k))

/-- The first `n` coefficients of the inverse of `a`, through transforms. The transforms grow up
to twice the precision, rounded up to a power of two.
-/
def transformInverse (a : List (Residue m)) (n : Nat) : Kernel (List (Residue m)) :=
  if n = 0 then
    pure []
  else
    match constantInverse? a with
    | some start => do
        let plan ← Plan.withCapacity (max (2 * n.nextPowerOfTwo) 2)
        let b ← (doublings 1 n).foldlM (transformInverseStep plan a) [start]
        pure (b.take n)
    | none => Logged.refuse .notInvertible

end Transform

end FastAlgebra
