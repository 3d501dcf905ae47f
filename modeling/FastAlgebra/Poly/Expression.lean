import FastAlgebra.Poly.Raw

/-! Polynomials as they are put together, by constructors and operations in any order. -/

namespace FastAlgebra

/-- What a polynomial is built from. An operation that replaces its first operand by the result is
that operation.
-/
inductive PolyExpression (F : Type) where
  | ofCoeffs (a : List F)
  | zero
  | one
  | constant (c : F)
  | x
  | monomial (c : F) (n : Nat)
  | fromRoots (roots : List F)
  | add (p q : PolyExpression F)
  | sub (p q : PolyExpression F)
  | neg (p : PolyExpression F)
  | mul (p q : PolyExpression F)
  | scale (p : PolyExpression F) (c : F)
  | derivative (p : PolyExpression F)
  | shift (p : PolyExpression F) (n : Nat)
  | truncate (p : PolyExpression F) (n : Nat)
  | reverse (p : PolyExpression F) (length : Nat)
  | monic (p : PolyExpression F)
  | pow (p : PolyExpression F) (n : Nat)
  | quotient? (p d : PolyExpression F)
  | remainder? (p d : PolyExpression F)
  | quotient (p d : PolyExpression F)
  | remainder (p d : PolyExpression F)

namespace PolyExpression

variable {F : Type} [KernelField F]

/-- Runs both operands and then the operation on them. -/
def onBoth (first second : Kernel (RawPoly F))
    (operation : RawPoly F → RawPoly F → Kernel (RawPoly F))
    : Kernel (RawPoly F) := do
  let left ← first
  let right ← second
  operation left right

/-- Builds the polynomial on bare coefficients. Divisions refuse the divisor zero, and no list is
built for a length that no list has.
-/
def run : PolyExpression F → Kernel (RawPoly F)
  | .ofCoeffs a => pure (.ofCoeffs a)
  | .zero => pure .zero
  | .one => pure .one
  | .constant c => pure (.constant c)
  | .x => pure .x
  | .monomial c n => Logged.ofContract (ofLength (RawPoly.monomial c) n)
  | .fromRoots roots => RawPoly.fromRoots roots
  | .add p q => onBoth p.run q.run fun left right => pure (left.add right)
  | .sub p q => onBoth p.run q.run fun left right => pure (left.sub right)
  | .neg p => RawPoly.neg <$> p.run
  | .mul p q => onBoth p.run q.run RawPoly.mul
  | .scale p c => (·.scale c) <$> p.run
  | .derivative p => RawPoly.derivative <$> p.run
  | .shift p n => p.run >>= fun base => Logged.ofContract (base.shiftWithin n)
  | .truncate p n => (·.truncate n) <$> p.run
  | .reverse p length => p.run >>= fun base => Logged.ofContract (ofLength base.reverse length)
  | .monic p => RawPoly.monic <$> p.run
  | .pow p n => p.run >>= fun base => base.pow n
  | .quotient? p d => onBoth p.run d.run RawPoly.quotient?
  | .remainder? p d => onBoth p.run d.run RawPoly.remainder?
  | .quotient p d => onBoth p.run d.run RawPoly.quotient
  | .remainder p d => onBoth p.run d.run RawPoly.remainder

end PolyExpression

end FastAlgebra
