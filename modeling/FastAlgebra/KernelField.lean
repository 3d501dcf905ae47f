import FastAlgebra.Gaussian
import FastAlgebra.Integer
import FastAlgebra.Nimber
import FastAlgebra.Product.Karatsuba
import FastAlgebra.SeriesInverse

/-! Coefficient fields that name the algorithms by which their lists are multiplied and their
series inverted. Residues go through the transform where it pays and where the modulus supports
the length; all others take Karatsuba's product.
-/

namespace FastAlgebra

/-- A coefficient field with its product of coefficient lists and its inverse of series. -/
class KernelField (F : Type) extends CoeffField F where
  convolve : ListProduct F := fun a b => pure (karatsuba a b)
  /-- The first coefficients of the inverse of a series. -/
  seriesInverse : List F → Nat → Kernel (List F) := newtonInverse convolve

namespace Residue

variable {m : Modulus}

/-- Products with an operand at most this long go without the transform. -/
def schoolbookThreshold : Nat :=
  32

/-- The product of two lists: by transforms unless an operand is short or the modulus does not
support the length.
-/
def convolve : ListProduct (Residue m) := fun a b =>
  if a.isEmpty || b.isEmpty then
    pure []
  else if min a.length b.length ≤ schoolbookThreshold
      ∨ TransformScalar.maxLength (Residue m) < (a.length + b.length - 1).nextPowerOfTwo then
    pure (karatsuba a b)
  else
    Transform.convolve a b

/-- The inverse of a series: by transforms where the modulus supports their length. -/
def seriesInverse (a : List (Residue m)) (n : Nat) : Kernel (List (Residue m)) :=
  if 2 * n.nextPowerOfTwo ≤ TransformScalar.maxLength (Residue m) then
    transformInverse a n
  else
    newtonInverse convolve a n

instance : KernelField (Residue m) where
  convolve := convolve
  seriesInverse := seriesInverse

end Residue

instance : KernelField Nimber where

instance {m : Modulus} : KernelField (Gaussian m) where

instance : KernelField Int where

end FastAlgebra
