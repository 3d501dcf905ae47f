import FastAlgebra.Residue.Inverse

/-! Gaussian residues `re + im i` with `i² = -1`. Modulo a prime that leaves the remainder three
on division by four they form a field. Powers and images of natural numbers are the general
ones.
-/

namespace FastAlgebra

/-- The residue `re + im i`. -/
structure Gaussian (m : Modulus) where
  re : Residue m
  im : Residue m
  deriving DecidableEq

namespace Gaussian

variable {m : Modulus}

instance : Zero (Gaussian m) where
  zero := ⟨0, 0⟩

instance : One (Gaussian m) where
  one := ⟨1, 0⟩

instance : Add (Gaussian m) where
  add x y := ⟨x.re + y.re, x.im + y.im⟩

instance : Sub (Gaussian m) where
  sub x y := ⟨x.re - y.re, x.im - y.im⟩

instance : Neg (Gaussian m) where
  neg x := ⟨-x.re, -x.im⟩

instance : Mul (Gaussian m) where
  mul x y := ⟨x.re * y.re - x.im * y.im, x.re * y.im + x.im * y.re⟩

/-- The product with the conjugate. -/
def norm (x : Gaussian m) : Residue m :=
  x.re * x.re + x.im * x.im

/-- The conjugate over the norm, where the norm is invertible. -/
def inv? (x : Gaussian m) : Option (Gaussian m) :=
  x.norm.inv?.map fun s => ⟨x.re * s, -x.im * s⟩

instance : CoeffField (Gaussian m) where
  isZero x := x.re.word == 0 && x.im.word == 0
  isOne x := x.re.word == 1 && x.im.word == 0
  text x := s!"{x.re.display}+{x.im.display}i"
  inv? := inv?

end Gaussian

end FastAlgebra
