import FastAlgebra.CoeffRing

/-! Lists of coefficients, lowest degree first. A list is read through its coefficients: past
its end they are zero.
-/

namespace FastAlgebra.CoeffList

variable {R : Type}

def coeff [Zero R] (a : List R) (i : Nat) : R :=
  a.getD i 0

/-- The first `n` coefficients, whether the list holds them or not. -/
def resize [Zero R] (n : Nat) (a : List R) : List R :=
  a.take n ++ List.replicate (n - a.length) 0

@[simp]
theorem length_resize [Zero R] (n : Nat) (a : List R) : (resize n a).length = n := by
  simp only [resize, List.length_append, List.length_take, List.length_replicate]
  omega

/-- The sum, as long as the longer operand. -/
def add [Add R] : List R → List R → List R
  | [], b => b
  | a, [] => a
  | x :: a, y :: b => (x + y) :: add a b

@[simp]
theorem length_add [Add R] (a b : List R) : (add a b).length = max a.length b.length := by
  fun_induction add a b <;> simp_all

/-- The difference, as long as the longer operand. -/
def sub [Zero R] [Sub R] : List R → List R → List R
  | [], b => b.map (0 - ·)
  | a, [] => a
  | x :: a, y :: b => (x - y) :: sub a b

/-- Adds `b` onto `a`; what would stand past the end of `a` is dropped. -/
def addOnto [Add R] : List R → List R → List R
  | [], _ => []
  | a, [] => a
  | x :: a, y :: b => (x + y) :: addOnto a b

/-- Adds `b` onto `a` from the degree `offset` on; what would stand past the end of `a` is
dropped.
-/
def addAt [Add R] (a : List R) (offset : Nat) (b : List R) : List R :=
  a.take offset ++ addOnto (a.drop offset) b

/-- Each coefficient times its degree, one degree lower. -/
def derivative [CoeffRing R] (a : List R) : List R :=
  (a.zipIdx.drop 1).map fun (c, i) => c * CoeffRing.ofNat i

/-- The list without the zeros at its end. -/
def trim [CoeffRing R] (a : List R) : List R :=
  (a.reverse.dropWhile CoeffRing.isZero).reverse

/-- What remains after trimming does not end in a zero. -/
theorem isZero_getLast_trim [CoeffRing R] (a : List R) (nonempty : trim a ≠ [])
    : CoeffRing.isZero ((trim a).getLast nonempty) = false := by
  have kept : a.reverse.dropWhile CoeffRing.isZero ≠ [] := by
    intro h
    exact nonempty (by simp [trim, h])
  have := List.head_dropWhile_not CoeffRing.isZero kept
  simpa [trim, List.getLast_reverse] using this

end FastAlgebra.CoeffList
