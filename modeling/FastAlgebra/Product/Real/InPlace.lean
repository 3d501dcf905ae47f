import FastAlgebra.Product.Real

/-! Products of real polynomials on lists that are rewritten where they stand. Both operands are
written over the parts of a list of zeros, and what is transformed back is read off the places of
the squared transform. There is no result if a place is missing.
-/

namespace FastAlgebra

/-- Writes values over the entries of a list, as far as there are both. -/
def overwrite {α β : Type} (put : α → β → α) : List α → List β → List α
  | x :: rest, value :: values => put x value :: overwrite put rest values
  | rest, _ => rest

/-- The front of a list, if it reaches that far. -/
def frontOf? {α : Type} (length : Nat) (a : List α) : Option (List α) :=
  if length ≤ a.length then some (a.take length) else none

variable {K : Type} [RealScalar K]

/-- The entry at `-i` of a squared transform, less the conjugate of the entry at `i`. -/
def crossTermAt? (squares : Array (Complex K)) (i : Nat) : Option (Complex K) := do
  let n := squares.size
  let there ← squares[(n - i) &&& (n - 1)]?
  let here ← squares[i]?
  some (there - here.conj)

/-- The product of two real polynomials in place. -/
def multiplyRealInPlace (a b : List K) : Kernel (Option (List K)) :=
  if a.isEmpty || b.isEmpty then
    pure (some [])
  else do
    let length := a.length + b.length - 1
    let n := length.nextPowerOfTwo
    let plan ← (Plan.withCapacity (max n 2) : Kernel (Plan (Complex K)))
    let blank : List (Complex K) := List.replicate n 0
    let reals := overwrite (fun z re => { z with re }) blank a
    let packed := overwrite (fun z im => { z with im }) reals b
    let (plan, image) ← plan.forward packed
    match (List.range n).mapM (crossTermAt? (image.map fun x => x * x).toArray) with
    | none => pure none
    | some terms => do
        let (_, product) ← plan.forward terms
        let factor : K := 1 / (RealScalar.ofNat 4 * RealScalar.ofNat n)
        pure ((frontOf? length product).map fun front => front.map (·.im * factor))

end FastAlgebra
