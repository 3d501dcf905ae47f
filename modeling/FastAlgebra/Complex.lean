/-! Complex numbers over a scalar that plays the part of the real numbers. The programs that run
use double precision; statements about exact arithmetic use the same definitions with the real
numbers themselves.
-/

namespace FastAlgebra

/-- The operations on real scalars that the complex transform needs. -/
class RealScalar (K : Type) extends Zero K, One K, Add K, Sub K, Neg K, Mul K, Div K where
  ofNat : Nat → K
  pi : K
  cos : K → K
  sin : K → K
  /-- The nearest integer, halves away from zero, as a signed word. -/
  round : K → Int64

instance : RealScalar Float where
  zero := 0.0
  one := 1.0
  ofNat := Float.ofNat
  pi := Float.ofBits 0x400921fb54442d18
  cos := Float.cos
  sin := Float.sin
  round x := x.round.toInt64

/-- The number `re + i im`. -/
structure Complex (K : Type) where
  re : K
  im : K

namespace Complex

variable {K : Type} [RealScalar K]

instance : Zero (Complex K) where
  zero := ⟨0, 0⟩

instance : One (Complex K) where
  one := ⟨1, 0⟩

instance : Add (Complex K) where
  add x y := ⟨x.re + y.re, x.im + y.im⟩

instance : Sub (Complex K) where
  sub x y := ⟨x.re - y.re, x.im - y.im⟩

instance : Neg (Complex K) where
  neg x := ⟨-x.re, -x.im⟩

instance : Mul (Complex K) where
  mul x y := ⟨x.re * y.re - x.im * y.im, x.re * y.im + x.im * y.re⟩

def scale (x : Complex K) (c : K) : Complex K :=
  ⟨x.re * c, x.im * c⟩

def ofReal (re : K) : Complex K :=
  ⟨re, 0⟩

/-- The point at distance `r` from the origin in the direction `theta`. -/
def polar (r theta : K) : Complex K :=
  ⟨r * RealScalar.cos theta, r * RealScalar.sin theta⟩

/-- The mirror image in the real line. -/
def conj (x : Complex K) : Complex K :=
  ⟨x.re, -x.im⟩

/-- The square of the distance from the origin. -/
def normSq (x : Complex K) : K :=
  x.re * x.re + x.im * x.im

/-- The inverse: the conjugate over the squared norm. -/
def inv (x : Complex K) : Complex K :=
  ⟨x.re / x.normSq, -x.im / x.normSq⟩

/-- The product with the imaginary unit, a quarter turn. -/
def mulI (x : Complex K) : Complex K :=
  ⟨-x.im, x.re⟩

end Complex

end FastAlgebra
