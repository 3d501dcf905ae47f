import FastAlgebra.Fault

/-! Rings and fields that serve as coefficients. The classes hold operations only. Their laws
are stated apart, because the kernels also run, with defined answers, on coefficients that are
not a field, such as the integers or the residues of a composite modulus.
-/

namespace FastAlgebra

/-- Combines `start` with the copies of `base` that the binary digits of `count` select, doubling
`base` from digit to digit. With an associative `combine` and the matching `double` this is
`start` combined with `count` copies of `base`.
-/
def combineByBits {R : Type} (combine : R → R → R) (double : R → R) (start base : R)
    (count : Nat)
    : R :=
  if count = 0 then
    start
  else
    combineByBits combine double (if count % 2 = 1 then combine start base else start)
      (double base) (count / 2)
termination_by count
decreasing_by omega

/-- The sum of `n` ones, by doubling. -/
def sumOfOnes {R : Type} [Zero R] [One R] [Add R] (n : Nat) : R :=
  combineByBits (· + ·) (fun x => x + x) 0 1 n

/-- The product of `n` copies of `x`, by squaring. -/
def powBySquaring {R : Type} [One R] [Mul R] (x : R) (n : Nat) : R :=
  combineByBits (· * ·) (fun y => y * y) 1 x n

/-- The operations of a commutative ring that the kernels use, and the text of an element. -/
class CoeffRing (R : Type) extends Zero R, One R, Add R, Sub R, Neg R, Mul R where
  isZero : R → Bool
  isOne : R → Bool
  /-- The image of a natural number. -/
  ofNat : Nat → R := sumOfOnes
  pow : R → Nat → R := powBySquaring
  /-- How an element is written inside a polynomial or a series. -/
  text : R → String

/-- A coefficient ring with an inverse for those elements that have one. -/
class CoeffField (F : Type) extends CoeffRing F where
  /-- The inverse of an element, if it has one. -/
  inv? : F → Option F

/-- The quotient of two elements; the caller promises an invertible divisor. -/
def CoeffField.divide {F : Type} [CoeffField F] (x y : F) : Except Violation F :=
  match inv? y with
  | some inverse => .ok (x * inverse)
  | none => .error .divisorZero

end FastAlgebra
