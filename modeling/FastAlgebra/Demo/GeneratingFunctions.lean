import FastAlgebra.Demo.Line
import FastAlgebra.Factorials
import FastAlgebra.Poly.Display
import FastAlgebra.ProductTree
import FastAlgebra.Series.Exponential

/-! Well-known sequences from their generating functions, and a polynomial brought back from its
values.
-/

namespace FastAlgebra.Demo.GeneratingFunctions

/-- The modulus of the coefficients, `119 * 2^23 + 1`. -/
def modulus : Modulus :=
  ⟨998244353, by decide, by decide⟩

abbrev F : Type :=
  Residue modulus

def terms : Nat :=
  16

def note (message : String) (fields : List (String × String)) : Show Unit :=
  Demo.note .info "series_demo" message fields

def noteSequence (message name : String) (values : List F) : Show Unit :=
  note message [(name, listText (values.map Residue.display))]

/-- The Bell numbers: over the factorials they are the coefficients of `exp (e^x - 1)`. -/
def bell (tables : Factorials F) : Show (List F) := do
  let series : Series F := ⟨0 :: (tables.inverses.toList.take terms).drop 1⟩
  let numbers ← run series.exp
  pure (List.zipWith (· * ·) numbers.coeffs tables.factorials.toList)

/-- One more term of the Catalan numbers: `c` becomes `1 + x c^2`. -/
def catalanStep (c : Series F) : Show (Series F) := do
  let square ← run (c.mul c)
  pure ⟨1 :: square.coeffs.take (terms - 1)⟩

/-- The Catalan numbers, by as many steps as there are terms. -/
def catalan : Show (List F) := do
  let c ← (List.range terms).foldlM (fun c _ => catalanStep c) (Series.one terms)
  pure c.coeffs

/-- The sum of the divisors of a positive number, zero for zero. -/
def divisorSum (n : Nat) : Nat :=
  ((List.range' 1 n).filter (n % · = 0)).foldl (· + ·) 0

/-- The partition numbers: the coefficients of the exponential of the sum of
`divisorSum n / n * x^n`.
-/
def partitions : Show (List F) := do
  let table ← Logged.ofResult (inverseTable terms)
  let sums : List F := (List.range terms).map fun n => Residue.ofNat (divisorSum n)
  let numbers ← run (Series.mk (List.zipWith (· * ·) sums table)).exp
  pure numbers.coeffs

/-- The polynomial through the values of `1 + x^3` at the points `0, …, 7`. -/
def interpolated : Show (Poly F) := do
  let p : Poly F := Poly.ofCoeffs [1, 0, 0, 1]
  let points : List F := (List.range 8).map Residue.ofNat
  let values ← run (p.evaluate points)
  run (Poly.interpolate points values)

def demo : Show Unit := do
  match Factorials.build terms with
  | .error _ => Logged.refuse .notInvertible
  | .ok tables =>
      noteSequence "Bell numbers" "bell" (← bell tables)
      noteSequence "Catalan numbers" "catalan" (← catalan)
      noteSequence "partition numbers" "partitions" (← partitions)
      note "interpolated" [("p", (← interpolated).display)]

end FastAlgebra.Demo.GeneratingFunctions
