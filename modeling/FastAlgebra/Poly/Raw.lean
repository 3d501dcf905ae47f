import FastAlgebra.ProductTree

/-! Polynomials by their bare coefficients. A list promises nothing about its last entry, so every
operation has to leave the normal form behind by itself. Most of them pass what they find through
`ofCoeffs`. Some know their result to be in normal form and put it together without.
-/

namespace FastAlgebra

/-- Coefficients, lowest degree first. Equality is equality of the lists. -/
structure RawPoly (R : Type) where
  coeffs : List R
  deriving DecidableEq

namespace RawPoly

section Ring

variable {R : Type} [CoeffRing R]

/-- Takes zeros off coefficients with the highest degree first, as long as another one follows. -/
def dropZeros : List R → List R
  | [] => []
  | [c] => [c]
  | c :: next :: rest =>
      if CoeffRing.isZero c then dropZeros (next :: rest) else c :: next :: rest

/-- The normal form: no zeros at the end, but a single zero if nothing else is left. -/
def ofCoeffs (a : List R) : RawPoly R :=
  let kept := (dropZeros a.reverse).reverse
  if kept.isEmpty then ⟨[0]⟩ else ⟨kept⟩

def zero : RawPoly R :=
  ⟨[0]⟩

def one : RawPoly R :=
  ⟨[1]⟩

def constant (c : R) : RawPoly R :=
  ofCoeffs [c]

def x : RawPoly R :=
  ofCoeffs [0, 1]

/-- The polynomial `c x^n`. -/
def monomial (c : R) (n : Nat) : RawPoly R :=
  ofCoeffs ((List.replicate (n + 1) 0).set n c)

def degree (p : RawPoly R) : Nat :=
  p.coeffs.length - 1

def coeff (p : RawPoly R) (i : Nat) : R :=
  CoeffList.coeff p.coeffs i

def lead (p : RawPoly R) : R :=
  p.coeff p.degree

def isZero (p : RawPoly R) : Bool :=
  p.coeffs.length == 1 && CoeffRing.isZero (p.coeff 0)

/-- The value at a point, by Horner's rule. -/
def eval (p : RawPoly R) (point : R) : R :=
  p.coeffs.reverse.foldl (fun value c => value * point + c) 0

/-- The shorter operand is added onto the longer one. -/
def add (p q : RawPoly R) : RawPoly R :=
  if q.coeffs.length ≤ p.coeffs.length then
    ofCoeffs (CoeffList.addOnto p.coeffs q.coeffs)
  else
    ofCoeffs (CoeffList.addOnto q.coeffs p.coeffs)

def sub (p q : RawPoly R) : RawPoly R :=
  ofCoeffs ((List.range (max p.coeffs.length q.coeffs.length)).map fun i => p.coeff i - q.coeff i)

/-- The negative has its zeros where the polynomial has them. -/
def neg (p : RawPoly R) : RawPoly R :=
  ⟨p.coeffs.map (- ·)⟩

def scale (p : RawPoly R) (c : R) : RawPoly R :=
  if CoeffRing.isZero c then zero else ofCoeffs (p.coeffs.map (· * c))

def derivative (p : RawPoly R) : RawPoly R :=
  if p.degree = 0 then zero else ofCoeffs (CoeffList.derivative p.coeffs)

/-- The product with `x^n`. -/
def shift (p : RawPoly R) (n : Nat) : RawPoly R :=
  if p.isZero || n == 0 then p else ofCoeffs (List.replicate n 0 ++ p.coeffs)

/-- The product with `x^n`, if a list can hold it. -/
def shiftWithin (p : RawPoly R) (n : Nat) : Except Violation (RawPoly R) :=
  if p.isZero then .ok p else ofLength p.shift n

/-- The terms of degree below `n`. -/
def truncate (p : RawPoly R) (n : Nat) : RawPoly R :=
  ofCoeffs (p.coeffs.take n)

/-- The first `length` coefficients in reverse order. -/
def reverse (p : RawPoly R) (length : Nat) : RawPoly R :=
  ofCoeffs ((List.range length).map p.coeff).reverse

end Ring

/-- The polynomial over its last coefficient. The zero polynomial stays as it is. -/
def monic {F : Type} [CoeffField F] (p : RawPoly F) : RawPoly F :=
  match CoeffField.inv? p.lead with
  | some inverse => if p.isZero then p else p.scale inverse
  | none => p

section Kernel

variable {F : Type} [KernelField F]

def mul (p q : RawPoly F) : Kernel (RawPoly F) :=
  if p.isZero || q.isZero then
    pure zero
  else
    ofCoeffs <$> KernelField.convolve p.coeffs q.coeffs

/-- The product of `result` with `n` copies of `base`, by squaring. The last square is left out. -/
def mulPow (result base : RawPoly F) (n : Nat) : Kernel (RawPoly F) :=
  if n = 0 then
    pure result
  else do
    let result ← if n % 2 = 1 then result.mul base else pure result
    let base ← if 0 < n / 2 then base.mul base else pure base
    mulPow result base (n / 2)
termination_by n
decreasing_by omega

/-- The powers zero and one take no product. -/
def pow (p : RawPoly F) (n : Nat) : Kernel (RawPoly F) :=
  if n = 0 then
    pure one
  else if n = 1 then
    pure p
  else
    mulPow one p n

/-- The product of `x - root` over the roots, halved down to single ones. -/
def rootProduct (config : TreeConfig) : (roots : List F) → Kernel (RawPoly F)
  | [] => pure one
  | [root] => pure (ofCoeffs [-root, 1])
  | first :: second :: rest => do
      let all := first :: second :: rest
      let mid := all.length / 2
      let (left, right) ← Logged.both (config.splits all.length)
        (fun _ => rootProduct config (all.take mid)) (fun _ => rootProduct config (all.drop mid))
      left.mul right
termination_by roots => roots.length
decreasing_by
  all_goals
    simp only [List.length_take, List.length_drop, List.length_cons]
    omega

def fromRoots (roots : List F) : Kernel (RawPoly F) := do
  Logged.emit (.treeStarted roots.length)
  rootProduct .standard roots

-----------------------------------------------------------------------------------------
-- Division
-----------------------------------------------------------------------------------------

def quotientLength (p d : RawPoly F) : Nat :=
  p.degree - d.degree + 1

/-- Division by the method of the written algorithm. -/
def longDivRem (p d : RawPoly F) : Except PolyError (RawPoly F × RawPoly F) :=
  match CoeffField.inv? d.lead with
  | some leadInverse =>
      let (quotient, remainder) := longDivide leadInverse d.coeffs.reverse.tail
        (p.quotientLength d) p.coeffs.reverse
      .ok (ofCoeffs quotient.reverse, ofCoeffs remainder.reverse)
  | none => .error .divisionByZero

/-- Division by the inverse series of the reversed divisor. -/
def seriesDivRem (p d : RawPoly F) : Kernel (RawPoly F × RawPoly F) := do
  Logged.emit (.seriesDivision p.degree d.degree)
  let length := p.quotientLength d
  let inverse ← KernelField.seriesInverse (d.coeffs.reverse.take length) length
  let reversed ← KernelField.convolve (p.coeffs.reverse.take length) inverse
  let quotient := ofCoeffs (reversed.take length).reverse
  let product ← quotient.mul d
  let remainder := (List.range d.degree).map fun i => p.coeff i - product.coeff i
  pure (quotient, ofCoeffs remainder)

/-- The quotient and the remainder. A dividend of lower degree is its own remainder. -/
def divRem (p d : RawPoly F) : Kernel (RawPoly F × RawPoly F) :=
  if d.isZero then
    Logged.refuse .divisionByZero
  else if p.isZero || p.degree < d.degree then
    pure (zero, p)
  else if p.quotientLength d < longDivisionThreshold || d.degree < longDivisionThreshold then
    Logged.ofResult (p.longDivRem d)
  else
    p.seriesDivRem d

def quotient? (p d : RawPoly F) : Kernel (RawPoly F) :=
  Prod.fst <$> p.divRem d

def remainder? (p d : RawPoly F) : Kernel (RawPoly F) :=
  Prod.snd <$> p.divRem d

/-- The quotient by a divisor that the caller promises to be a proper one. -/
def quotient (p d : RawPoly F) : Kernel (RawPoly F) :=
  (p.quotient? d).insist

/-- The remainder by a divisor that the caller promises to be a proper one. -/
def remainder (p d : RawPoly F) : Kernel (RawPoly F) :=
  (p.remainder? d).insist

end Kernel

end RawPoly

/-- The bare coefficients of a polynomial in normal form. -/
def Poly.raw {R : Type} [CoeffRing R] (p : Poly R) : RawPoly R :=
  ⟨p.coeffs⟩

end FastAlgebra
