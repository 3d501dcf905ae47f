import FastAlgebra.CoeffRing

/-! How sums of terms are written. -/

namespace FastAlgebra

variable {R : Type} [CoeffRing R]

/-- The term of degree `i`. -/
def termText (c : R) (i : Nat) : String :=
  match i with
  | 0 => CoeffRing.text c
  | 1 => s!"{CoeffRing.text c}*x"
  | i => s!"{CoeffRing.text c}*x^{i}"

/-- The terms of a coefficient list, lowest degree first, without those that are zero. -/
def termTexts (a : List R) : List String :=
  a.zipIdx.filterMap fun (c, i) => if CoeffRing.isZero c then none else some (termText c i)

end FastAlgebra
