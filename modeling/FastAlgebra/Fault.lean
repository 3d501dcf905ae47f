/-! The two ways an operation can fail. A refusal is an answer about the data and is reported to
the caller; a violation means that the caller broke a promise of the operation's contract.
-/

namespace FastAlgebra

/-- The refusals of polynomial and power series arithmetic. -/
inductive PolyError where
  | divisionByZero
  | notInvertible
  | zeroDivisor (n : Nat)
  | logConstantTerm
  | expConstantTerm
  | emptyInterpolation
  | lengthMismatch (points values : Nat)
  | duplicateNode (index : Nat)
  deriving DecidableEq

def PolyError.message : PolyError → String
  | .divisionByZero => "division by the zero polynomial"
  | .notInvertible => "constant term is not invertible"
  | .zeroDivisor n => s!"{n} is zero in the coefficient field"
  | .logConstantTerm => "logarithm needs constant term 1"
  | .expConstantTerm => "exponential needs constant term 0"
  | .emptyInterpolation => "interpolation needs at least one point"
  | .lengthMismatch points values => s!"{points} nodes but {values} values"
  | .duplicateNode index => s!"interpolation node {index} is repeated"

/-- The promises that a caller can break. The last one is a division whose refusal the caller
had ruled out; the one before it is a list longer than memory can hold.
-/
inductive Violation where
  | lengthNotPowerOfTwo (length : Nat)
  | lengthAboveMaximum (length maximum : Nat)
  | lengthBeyondAdicity (length adicity modulus : Nat)
  | modulusOutOfRange (modulus : Nat)
  | divisorNotInvertible
  | divisorZero
  | listTooLong (length : Nat)
  | undividable (reason : PolyError)
  deriving DecidableEq

def Violation.message : Violation → String
  | .lengthNotPowerOfTwo length => s!"transform length {length} is not a power of two"
  | .lengthAboveMaximum length maximum =>
      s!"transform length {length} exceeds the maximum {maximum}"
  | .lengthBeyondAdicity length adicity modulus =>
      s!"transform length {length} exceeds the 2-adic capacity 2^{adicity} of modulus {modulus}"
  | .modulusOutOfRange modulus => s!"modulus {modulus} out of range"
  | .divisorNotInvertible => "division by non-invertible element"
  | .divisorZero => "division by zero"
  | .listTooLong length => s!"no list has {length} entries"
  | .undividable reason => reason.message

/-- Why an operation has no result. -/
inductive Fault where
  | refused (error : PolyError)
  | violated (violation : Violation)
  deriving DecidableEq

def Fault.message : Fault → String
  | .refused error => error.message
  | .violated violation => violation.message

end FastAlgebra
