import FastAlgebra.Product.Karatsuba

/-! Products on a buffer. Both algorithms collect the product in a list of zeros that has its length
from the start, and add the partial products onto it. An addition that would reach past the end of
the buffer, where a coefficient would be dropped, has no result.
-/

namespace FastAlgebra

variable {R : Type} [Zero R] [Add R]

/-- A list of zeros for the product. -/
def blankProduct (a b : List R) : List R :=
  List.replicate (a.length + b.length - 1) 0

/-- Adds `b` onto `a` from the degree `offset` on, if all of it has a place there. -/
def addWithin (a : List R) (offset : Nat) (b : List R) : Option (List R) :=
  if offset + b.length ≤ a.length then some (CoeffList.addAt a offset b) else none

/-- Subtracts `b` from `a`, if all of it has a place there. -/
def subWithin [Sub R] (a b : List R) : Option (List R) :=
  if b.length ≤ a.length then some (CoeffList.sub a b) else none

variable [Mul R] [DecidableEq R]

/-- Adds the rows of a product, each one degree higher than the one before. A coefficient zero has
no row.
-/
def addRows (buffer : List R) (offset : Nat) (a b : List R) : Option (List R) :=
  match a with
  | [] => some buffer
  | x :: rest => do
      let next ← (if x = 0 then some buffer else addWithin buffer offset (b.map (x * ·)))
      addRows next (offset + 1) rest b

def schoolbookOnBuffer (a b : List R) : Option (List R) :=
  if a.isEmpty || b.isEmpty then
    some []
  else
    addRows (blankProduct a b) 0 a b

/-- Karatsuba's product, with every partial product in its place. -/
def karatsubaOnBuffer [Sub R] (a b : List R) : Option (List R) :=
  if a.isEmpty || b.isEmpty then
    some []
  else if min a.length b.length < karatsubaThreshold then
    schoolbookOnBuffer a b
  else
    let half := (max a.length b.length + 1) / 2
    if min a.length b.length ≤ half then do
      let long := if b.length ≤ a.length then a else b
      let short := if b.length ≤ a.length then b else a
      let low ← karatsubaOnBuffer (long.take half) short
      let buffer ← addWithin (blankProduct a b) 0 low
      let high ← karatsubaOnBuffer (long.drop half) short
      addWithin buffer (long.take half).length high
    else do
      let low ← karatsubaOnBuffer (a.take half) (b.take half)
      let high ← karatsubaOnBuffer (a.drop half) (b.drop half)
      let whole ← karatsubaOnBuffer (CoeffList.add (a.take half) (a.drop half))
        (CoeffList.add (b.take half) (b.drop half))
      let withoutLow ← subWithin whole low
      let middle ← subWithin withoutLow high
      let first ← addWithin (blankProduct a b) 0 low
      let second ← addWithin first half middle
      addWithin second (2 * half) high
termination_by a.length + b.length
decreasing_by
  all_goals
    have long : ¬ min a.length b.length < 32 := ‹¬ min _ _ < karatsubaThreshold›
    simp +zetaDelta only [CoeffList.length_add, List.length_take, List.length_drop]
    grind

end FastAlgebra
