import FastAlgebra.CoeffList
import FastAlgebra.Extent
import FastAlgebra.KernelField

/-! Polynomials in one variable, by their coefficients. Each polynomial has one form only: its
last coefficient is not zero, except that the zero polynomial holds a single zero.
-/

namespace FastAlgebra

open CoeffRing (isZero)

/-- A polynomial, lowest degree first. -/
structure Poly (R : Type) [CoeffRing R] where
  coeffs : List R
  nonempty : coeffs ≠ []
  normal : coeffs = [0] ∨ isZero (coeffs.getLast nonempty) = false

namespace Poly

section Ring

variable {R : Type} [CoeffRing R]

@[ext]
theorem ext {p q : Poly R} (coeffs : p.coeffs = q.coeffs) : p = q := by
  cases p
  cases q
  simp_all

instance [DecidableEq R] : DecidableEq (Poly R) := fun p q =>
  decidable_of_iff (p.coeffs = q.coeffs) ⟨ext, fun same => same ▸ rfl⟩

/-- The polynomial with the given coefficients; zeros at the end do not count. -/
def ofCoeffs (a : List R) : Poly R :=
  if nonempty : CoeffList.trim a = [] then
    ⟨[0], by simp, .inl rfl⟩
  else
    ⟨CoeffList.trim a, nonempty, .inr (CoeffList.isZero_getLast_trim a nonempty)⟩

def zero : Poly R :=
  ofCoeffs []

def constant (c : R) : Poly R :=
  ofCoeffs [c]

def one : Poly R :=
  constant 1

/-- The polynomial `c x^n`. -/
def monomial (c : R) (n : Nat) : Poly R :=
  ofCoeffs (List.replicate n 0 ++ [c])

def x : Poly R :=
  monomial 1 1

def linear (root : R) : Poly R :=
  ofCoeffs [-root, 1]

/-- The degree, zero for the zero polynomial. -/
def degree (p : Poly R) : Nat :=
  p.coeffs.length - 1

def coeff (p : Poly R) (i : Nat) : R :=
  CoeffList.coeff p.coeffs i

def lead (p : Poly R) : R :=
  p.coeffs.getLast p.nonempty

def isZero (p : Poly R) : Bool :=
  p.coeffs.length == 1 && CoeffRing.isZero p.lead

/-- The value at a point, by Horner's rule. -/
def eval (p : Poly R) (point : R) : R :=
  p.coeffs.foldr (fun c value => value * point + c) 0

def add (p q : Poly R) : Poly R :=
  ofCoeffs (CoeffList.add p.coeffs q.coeffs)

def sub (p q : Poly R) : Poly R :=
  ofCoeffs (CoeffList.sub p.coeffs q.coeffs)

def neg (p : Poly R) : Poly R :=
  ofCoeffs (p.coeffs.map (- ·))

def scale (p : Poly R) (c : R) : Poly R :=
  ofCoeffs (p.coeffs.map (· * c))

def derivative (p : Poly R) : Poly R :=
  ofCoeffs (CoeffList.derivative p.coeffs)

/-- The product with `x^n`. The zero polynomial stays as it is, however large `n`. -/
def shift (p : Poly R) (n : Nat) : Poly R :=
  if p.isZero then p else ofCoeffs (List.replicate n 0 ++ p.coeffs)

/-- The product with `x^n`, if a list can hold it. -/
def shiftWithin (p : Poly R) (n : Nat) : Except Violation (Poly R) :=
  if p.isZero then .ok p else ofLength p.shift n

/-- The terms of degree below `n`. -/
def truncate (p : Poly R) (n : Nat) : Poly R :=
  ofCoeffs (p.coeffs.take n)

/-- The first `length` coefficients in reverse order: `x ^ (length - 1)` times the value at the
inverse of `x`, where no higher terms are left out.
-/
def reverse (p : Poly R) (length : Nat) : Poly R :=
  ofCoeffs (CoeffList.resize length p.coeffs).reverse

end Ring

section Field

variable {F : Type} [CoeffField F]

/-- The coefficients of the antiderivative above the constant term, from degree `i` on. A degree
that is zero in the field has no inverse.
-/
def integralCoeffs : (i : Nat) → List F → Except PolyError (List F)
  | _, [] => .ok []
  | i, c :: rest =>
      match CoeffField.inv? (CoeffRing.ofNat i : F) with
      | some inverse => (c * inverse :: ·) <$> integralCoeffs (i + 1) rest
      | none => .error (.zeroDivisor i)

/-- The antiderivative with constant term zero. -/
def integral (p : Poly F) : Except PolyError (Poly F) :=
  if p.isZero then
    .ok zero
  else
    (fun rest => ofCoeffs (0 :: rest)) <$> integralCoeffs 1 p.coeffs

/-- The polynomial over its last coefficient, where that is invertible. -/
def monic (p : Poly F) : Poly F :=
  match CoeffField.inv? p.lead with
  | some inverse => p.scale inverse
  | none => p

end Field

section Kernel

variable {F : Type} [KernelField F]

def mul (p q : Poly F) : Kernel (Poly F) :=
  if p.isZero || q.isZero then
    pure zero
  else
    ofCoeffs <$> KernelField.convolve p.coeffs q.coeffs

/-- The product of `result` with `n` copies of `base`, by squaring. The last square is left out.
-/
def mulPow (result base : Poly F) (n : Nat) : Kernel (Poly F) :=
  if n = 0 then
    pure result
  else do
    let result ← if n % 2 = 1 then result.mul base else pure result
    if n = 1 then
      pure result
    else
      mulPow result (← base.mul base) (n / 2)
termination_by n
decreasing_by omega

def pow (p : Poly F) (n : Nat) : Kernel (Poly F) :=
  mulPow one p n

end Kernel

end Poly

end FastAlgebra
