import FastAlgebra.CoeffText
import FastAlgebra.Poly.Basic

/-! How polynomials are written. -/

namespace FastAlgebra

/-- The terms that are not zero, joined by plus signs; a single `0` if there are none. -/
def Poly.display {R : Type} [CoeffRing R] (p : Poly R) : String :=
  if p.isZero then "0" else " + ".intercalate (termTexts p.coeffs)

end FastAlgebra
