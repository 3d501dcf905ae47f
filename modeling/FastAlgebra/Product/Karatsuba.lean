import FastAlgebra.Product.Schoolbook

/-! The product of two coefficient lists by Karatsuba's method: three products of half the
length in place of four.
-/

namespace FastAlgebra

/-- Operands shorter than this are multiplied by the definition. -/
def karatsubaThreshold : Nat :=
  32

variable {R : Type} [Zero R] [Add R] [Sub R] [Mul R]

/-- The product. A short operand that fits into one half multiplies the two halves of the long
one; otherwise the middle product comes from the sums of the halves.
-/
def karatsuba (a b : List R) : List R :=
  if min a.length b.length < karatsubaThreshold then
    schoolbook a b
  else
    let half := (max a.length b.length + 1) / 2
    let blank : List R := List.replicate (a.length + b.length - 1) 0
    if min a.length b.length ≤ half then
      let long := if b.length ≤ a.length then a else b
      let short := if b.length ≤ a.length then b else a
      let low := karatsuba (long.take half) short
      let high := karatsuba (long.drop half) short
      CoeffList.addAt (CoeffList.addAt blank 0 low) half high
    else
      let low := karatsuba (a.take half) (b.take half)
      let high := karatsuba (a.drop half) (b.drop half)
      let whole := karatsuba (CoeffList.add (a.take half) (a.drop half))
        (CoeffList.add (b.take half) (b.drop half))
      let middle := CoeffList.sub (CoeffList.sub whole low) high
      CoeffList.addAt (CoeffList.addAt (CoeffList.addAt blank 0 low) half middle)
        (2 * half) high
termination_by a.length + b.length
decreasing_by
  all_goals
    have long : ¬ min a.length b.length < 32 := ‹¬ min _ _ < karatsubaThreshold›
    simp +zetaDelta only [CoeffList.length_add, List.length_take, List.length_drop]
    grind

end FastAlgebra
