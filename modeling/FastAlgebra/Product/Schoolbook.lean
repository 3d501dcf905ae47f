import FastAlgebra.CoeffList

/-! The product of two coefficient lists by the definition. -/

namespace FastAlgebra

variable {R : Type} [Zero R] [Add R] [Mul R]

/-- The product, row by row: each coefficient of the first list weighs the second list, one
degree higher from row to row. It is empty where an operand is.
-/
def schoolbook : List R → List R → List R
  | [], _ => []
  | _ :: _, [] => []
  | x :: a, y :: b => CoeffList.add ((y :: b).map (x * ·)) (0 :: schoolbook a (y :: b))

end FastAlgebra
