import FastAlgebra.CoeffText
import FastAlgebra.InverseTable
import FastAlgebra.Poly.Basic

/-! Power series that are known up to some power of the variable. The number of coefficients is
the precision, so zeros at the end count: they are known terms.
-/

namespace FastAlgebra

/-- The known coefficients of a power series, lowest degree first. -/
structure Series (R : Type) where
  coeffs : List R
  deriving DecidableEq

namespace Series

section Ring

variable {R : Type} [CoeffRing R]

def precision (a : Series R) : Nat :=
  a.coeffs.length

/-- The coefficient of degree `i`, zero where it is not known. -/
def coeff (a : Series R) (i : Nat) : R :=
  CoeffList.coeff a.coeffs i

def constant (c : R) (n : Nat) : Series R :=
  ⟨CoeffList.resize n [c]⟩

def zero (n : Nat) : Series R :=
  ⟨CoeffList.resize n []⟩

def one (n : Nat) : Series R :=
  constant 1 n

def ofPoly (p : Poly R) (n : Nat) : Series R :=
  ⟨CoeffList.resize n p.coeffs⟩

def toPoly (a : Series R) : Poly R :=
  Poly.ofCoeffs a.coeffs

/-- The first `n` coefficients, as far as they are known. -/
def truncate (a : Series R) (n : Nat) : Series R :=
  ⟨a.coeffs.take n⟩

def scale (a : Series R) (c : R) : Series R :=
  ⟨a.coeffs.map (· * c)⟩

def neg (a : Series R) : Series R :=
  ⟨a.coeffs.map (- ·)⟩

/-- The sum, to the lesser precision. -/
def add (a b : Series R) : Series R :=
  ⟨List.zipWith (· + ·) a.coeffs b.coeffs⟩

/-- The difference, to the lesser precision. -/
def sub (a b : Series R) : Series R :=
  ⟨List.zipWith (· - ·) a.coeffs b.coeffs⟩

def derivative (a : Series R) : Series R :=
  ⟨CoeffList.derivative a.coeffs⟩

/-- The degree of the first term that is not zero, if one is known. -/
def valuation? (a : Series R) : Option Nat :=
  a.coeffs.findIdx? fun c => !CoeffRing.isZero c

/-- The terms that are not zero and the order of what is not known, joined by plus signs. -/
def display (a : Series R) : String :=
  " + ".intercalate (termTexts a.coeffs ++ [s!"O(x^{a.precision})"])

end Ring

/-- The antiderivative with constant term zero, to one coefficient more. -/
def integral {F : Type} [CoeffField F] (a : Series F) : Except PolyError (Series F) :=
  (fun table => ⟨0 :: List.zipWith (· * ·) a.coeffs (table.drop 1)⟩)
    <$> inverseTable a.precision

/-- The product, to the lesser precision. -/
def mul {F : Type} [KernelField F] (a b : Series F) : Kernel (Series F) :=
  let n := min a.precision b.precision
  (fun product => ⟨product.take n⟩)
    <$> KernelField.convolve (a.coeffs.take n) (b.coeffs.take n)

/-- The inverse, to the same precision. -/
def inverse {F : Type} [KernelField F] (a : Series F) : Kernel (Series F) :=
  Series.mk <$> KernelField.seriesInverse a.coeffs a.precision

end Series

end FastAlgebra
