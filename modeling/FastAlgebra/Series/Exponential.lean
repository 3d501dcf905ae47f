import FastAlgebra.Series.Basic

/-! Logarithm, exponential and powers of power series. The logarithm is the integral of the
logarithmic derivative, the exponential is its inverse by Newton's iteration, and a power is the
exponential of a multiple of the logarithm.
-/

namespace FastAlgebra.Series

variable {F : Type} [KernelField F]

/-- The logarithm of a series with constant term one. -/
def log (a : Series F) : Kernel (Series F) :=
  let n := a.precision
  if n = 0 then
    pure (zero 0)
  else if !CoeffRing.isOne (a.coeff 0) then
    Logged.refuse .logConstantTerm
  else do
    let inverse ← KernelField.seriesInverse a.coeffs (n - 1)
    let quotient ← KernelField.convolve a.derivative.coeffs inverse
    Logged.ofResult (integral ⟨CoeffList.resize (n - 1) quotient⟩)

/-- Brings an exponential of precision `k` to twice the precision, or to that of `a` if that is
less: `b` becomes `b (1 + a - log b)`.
-/
def expStep (a : Series F) (b : List F) (k : Nat) : Kernel (List F) := do
  let precision := min (2 * k) a.precision
  let b := CoeffList.resize precision b
  let logarithm ← log ⟨b⟩
  let error := CoeffList.sub (a.coeffs.take precision) logarithm.coeffs
  let next ← KernelField.convolve b (CoeffList.add error [1])
  Logged.emit (.expStep precision)
  pure (next.take precision)

/-- The exponential of a series with constant term zero. A series of which nothing is known
still has an exponential with constant term one.
-/
def exp (a : Series F) : Kernel (Series F) :=
  if a.precision = 0 then
    pure (one 1)
  else if !CoeffRing.isZero (a.coeff 0) then
    Logged.refuse .expConstantTerm
  else
    Series.mk <$> (doublings 1 a.precision).foldlM (expStep a) [1]

/-- The power of a series whose first term that is not zero has degree `p`. Over that term the
series has constant term one; its power is shifted by `k p`, to where the power begins.
-/
def powFrom (a : Series F) (p k : Nat) : Kernel (Series F) :=
  let lead := a.coeff p
  match CoeffField.inv? lead with
  | none => Logged.refuse .notInvertible
  | some leadInverse => do
      let shift := p * k
      let unit := (a.coeffs.drop p).take (a.precision - shift)
      let logarithm ← log ⟨unit.map (· * leadInverse)⟩
      let powered ← exp (logarithm.scale (CoeffRing.ofNat k))
      Logged.emit (.seriesPower k shift)
      let factor := CoeffRing.pow lead k
      pure ⟨List.replicate shift 0 ++ powered.coeffs.map (· * factor)⟩

/-- The product of `k` copies, to the same precision. Where the power begins past the precision,
all known terms are zero.
-/
def pow (a : Series F) (k : Nat) : Kernel (Series F) :=
  if k = 0 then
    pure (one a.precision)
  else
    match a.valuation? with
    | none => pure (zero a.precision)
    | some p => if a.precision ≤ p * k then pure (zero a.precision) else a.powFrom p k

end FastAlgebra.Series
