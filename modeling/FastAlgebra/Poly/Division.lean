import FastAlgebra.Poly.Basic

/-! Division with remainder. Long quotients use that reversing the coefficients turns the
quotient into the beginning of a quotient of power series, where the leading coefficient of the
divisor has become the constant term. Short ones use long division.
-/

namespace FastAlgebra

/-- Quotients or divisors shorter than this are left to long division. -/
def longDivisionThreshold : Nat :=
  32

/-- Takes `c` times the first list away from the beginning of the second. -/
def subMultiple {R : Type} [Sub R] [Mul R] (c : R) : List R → List R → List R
  | [], b => b
  | _, [] => []
  | x :: a, y :: b => (y - c * x) :: subMultiple c a b

/-- Long division on coefficients with the highest degree first: the quotient of the given
length, and what remains. The divisor is given by the inverse of its leading coefficient and by
its other coefficients.
-/
def longDivide {R : Type} [Sub R] [Mul R] (leadInverse : R) (tail : List R)
    : (length : Nat) → List R → List R × List R
  | 0, rest => ([], rest)
  | _ + 1, [] => ([], [])
  | length + 1, x :: rest =>
      let c := x * leadInverse
      let (quotient, remainder) :=
        longDivide leadInverse tail length (subMultiple c tail rest)
      (c :: quotient, remainder)

namespace Poly

variable {F : Type} [KernelField F]

/-- The length of the quotient of a polynomial by one of no greater degree. -/
def quotientLength (p d : Poly F) : Nat :=
  p.degree - d.degree + 1

/-- Division by the method of the written algorithm. -/
def longDivRem (p d : Poly F) : Except PolyError (Poly F × Poly F) :=
  match CoeffField.inv? d.lead with
  | some leadInverse =>
      let (quotient, remainder) := longDivide leadInverse d.coeffs.reverse.tail
        (p.quotientLength d) p.coeffs.reverse
      .ok (ofCoeffs quotient.reverse, ofCoeffs remainder.reverse)
  | none => .error .divisionByZero

/-- Division by the inverse series of the reversed divisor. -/
def seriesDivRem (p d : Poly F) : Kernel (Poly F × Poly F) := do
  Logged.emit (.seriesDivision p.degree d.degree)
  let length := p.quotientLength d
  let inverse ← KernelField.seriesInverse (d.coeffs.reverse.take length) length
  let reversed ← KernelField.convolve (p.coeffs.reverse.take length) inverse
  let quotient := ofCoeffs (reversed.take length).reverse
  let product ← quotient.mul d
  let remainder := (CoeffList.sub p.coeffs product.coeffs).take d.degree
  pure (quotient, ofCoeffs remainder)

/-- The quotient and the remainder, whose degree is below that of the divisor or which is zero.
-/
def divRem (p d : Poly F) : Kernel (Poly F × Poly F) :=
  if d.isZero then
    Logged.refuse .divisionByZero
  else if p.isZero || p.degree < d.degree then
    pure (zero, p)
  else if p.quotientLength d < longDivisionThreshold || d.degree < longDivisionThreshold then
    Logged.ofResult (p.longDivRem d)
  else
    p.seriesDivRem d

def quotient? (p d : Poly F) : Kernel (Poly F) :=
  Prod.fst <$> p.divRem d

def remainder? (p d : Poly F) : Kernel (Poly F) :=
  Prod.snd <$> p.divRem d

/-- The quotient by a divisor that the caller promises to be a proper one. -/
def quotient (p d : Poly F) : Kernel (Poly F) :=
  (p.quotient? d).insist

/-- The remainder by a divisor that the caller promises to be a proper one. -/
def remainder (p d : Poly F) : Kernel (Poly F) :=
  (p.remainder? d).insist

end Poly

end FastAlgebra
