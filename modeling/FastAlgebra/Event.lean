import FastAlgebra.Logged

/-! The events that the kernels log. They show which algorithm ran and at which size. -/

namespace FastAlgebra

/-- The severity of a log entry, the most severe first. -/
inductive Level where
  | error
  | warn
  | info
  | debug
  | trace
  deriving DecidableEq

/-- The place of a level in the order of severity, zero for the most severe. -/
def Level.rank : Level → Nat
  | .error => 0
  | .warn => 1
  | .info => 2
  | .debug => 3
  | .trace => 4

def Level.name : Level → String
  | .error => "error"
  | .warn => "warn"
  | .info => "info"
  | .debug => "debug"
  | .trace => "trace"

/-- What a kernel reports about its own run. -/
inductive Event where
  | tablesGrown (old new : Nat)
  | newtonStep (precision : Nat)
  | transformInverseStep (precision : Nat)
  | seriesDivision (dividend divisor : Nat)
  | treeStarted (points : Nat)
  | expStep (precision : Nat)
  | seriesPower (exponent shift : Nat)
  deriving DecidableEq

namespace Event

/-- Only the start of a product tree is worth more than a trace. -/
def level : Event → Level
  | .treeStarted _ => .debug
  | _ => .trace

def message : Event → String
  | .tablesGrown _ _ => "growing transform tables"
  | .newtonStep _ => "newton inverse step"
  | .transformInverseStep _ => "ntt inverse step"
  | .seriesDivision _ _ => "division by series inverse"
  | .treeStarted _ => "building product tree"
  | .expStep _ => "exp newton step"
  | .seriesPower _ _ => "series power"

/-- The named numbers that an event carries, in the order in which they are printed. -/
def fields : Event → List (String × Nat)
  | .tablesGrown old new => [("from", old), ("to", new)]
  | .newtonStep precision => [("precision", precision)]
  | .transformInverseStep precision => [("precision", precision)]
  | .seriesDivision dividend divisor => [("dividend", dividend), ("divisor", divisor)]
  | .treeStarted points => [("points", points)]
  | .expStep precision => [("precision", precision)]
  | .seriesPower exponent shift => [("exponent", exponent), ("shift", shift)]

end Event

/-- The computations of the kernels. -/
abbrev Kernel : Type → Type :=
  Logged Event

end FastAlgebra
