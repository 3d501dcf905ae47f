import FastAlgebra.SeriesInverse

/-! The inverse of a series through requests to a plan. Each transform is asked for on its own, so
its length is checked every time, and the tables grow if they do not reach.
-/

namespace FastAlgebra

variable {m : Modulus}

/-- Brings an inverse of precision `k` to twice the precision with three requests. -/
def requestInverseStep (a : List (Residue m)) (state : Plan (Residue m) × List (Residue m))
    (k : Nat)
    : Kernel (Plan (Residue m) × List (Residue m)) := do
  let length := 4 * k
  let (plan, imageB) ← state.1.forward (CoeffList.resize length state.2)
  let (plan, imageA) ← plan.forward (CoeffList.resize length (a.take (2 * k)))
  let factor : Residue m := TransformScalar.inverseLength length
  let two : Residue m := Residue.ofNat 2
  let image := List.zipWith (fun x y => x * (two - y * x) * factor) imageB imageA
  let (plan, c) ← plan.forward (reflect image)
  Logged.emit (.transformInverseStep (2 * k))
  pure (plan, c.take (2 * k))

/-- The first `n` coefficients of the inverse of `a`, through requests. -/
def requestInverse (a : List (Residue m)) (n : Nat) : Kernel (List (Residue m)) :=
  if n = 0 then
    pure []
  else
    match constantInverse? a with
    | some start => do
        let plan ← Plan.withCapacity (max (2 * n.nextPowerOfTwo) 2)
        let (_, b) ← (doublings 1 n).foldlM (requestInverseStep a) (plan, [start])
        pure (b.take n)
    | none => Logged.refuse .notInvertible

end FastAlgebra
