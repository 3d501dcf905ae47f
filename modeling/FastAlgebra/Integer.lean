import FastAlgebra.CoeffRing

/-! The integers as coefficients. Only one and minus one have an inverse. -/

namespace FastAlgebra

instance : CoeffField Int where
  zero := 0
  one := 1
  isZero x := x == 0
  isOne x := x == 1
  text x := toString x
  inv? x := if x == 1 || x == -1 then some x else none

end FastAlgebra
