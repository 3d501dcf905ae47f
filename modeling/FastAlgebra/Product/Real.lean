import FastAlgebra.Transform.Plan

/-! Products of real polynomials by two complex transforms in place of three. One operand is the
real part and the other the imaginary part of a single list; twice the product is then the
imaginary part of its square.
-/

namespace FastAlgebra

variable {K : Type} [RealScalar K]

/-- The transform of four times the product, weighted by the imaginary unit: the squared
transform of the packed operands at `-i`, less its conjugate at `i`.
-/
def crossTerms (squares : Array (Complex K)) : List (Complex K) :=
  let n := squares.size
  (List.range n).map fun i => squares.getD ((n - i) % n) 0 - (squares.getD i 0).conj

/-- The product of two real polynomials. -/
def multiplyReal (a b : List K) : Kernel (List K) :=
  if a.isEmpty || b.isEmpty then
    pure []
  else do
    let length := a.length + b.length - 1
    let n := length.nextPowerOfTwo
    let plan ← Plan.withCapacity (max n 2)
    let packed := List.zipWith Complex.mk (CoeffList.resize n a) (CoeffList.resize n b)
    let squares := ((plan.transform packed).map fun x => x * x).toArray
    let factor : K := 1 / (RealScalar.ofNat 4 * RealScalar.ofNat n)
    pure (((plan.transform (crossTerms squares)).take length).map (·.im * factor))

end FastAlgebra
