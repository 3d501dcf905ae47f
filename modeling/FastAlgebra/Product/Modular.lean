import FastAlgebra.Transform.Plan

/-! Products modulo any number below `2^31` by complex transforms. Each coefficient is split
into a low half of 15 bits and the rest, so that the exact products of halves stay small enough
to be recovered by rounding. One list carries both halves of an operand, and two more
transforms bring back the four products of halves.
-/

namespace FastAlgebra

/-- The bits of a low half. -/
def splitBits : Nat :=
  15

variable {K : Type} [RealScalar K]

/-- The two halves of a coefficient as one complex number. -/
def splitCoeff (v : UInt32) : Complex K :=
  let radix := powerOfTwo splitBits
  ⟨RealScalar.ofNat (v.toNat % radix), RealScalar.ofNat (v.toNat / radix)⟩

/-- The transforms at `i` of the low and of the high halves, from the transform `b` of both. The
halves are real, so the mirrored entry separates them. Both are scaled for the transform back.
-/
def halvesAt (b : Array (Complex K)) (i : Nat) : Complex K × Complex K :=
  let n := b.size
  let mirrored := (b.getD ((n - i) % n) 0).conj
  let factor : K := RealScalar.ofNat 1 / RealScalar.ofNat 2 / RealScalar.ofNat n
  let low := (b.getD i 0 + mirrored).scale factor
  let high := (b.getD i 0 - mirrored).scale factor
  (low, ⟨high.im, -high.re⟩)

/-- The product at `i` of the mirrored transform `a` with the halves of `b`. The halves of a
mirrored index are the conjugates, so they are read in the first half of the list only.
-/
def halfProductsAt (a b : Array (Complex K)) (i : Nat) : Complex K × Complex K :=
  let n := a.size
  let mirrored := a.getD ((n - i) % n) 0
  if i ≤ n / 2 then
    let (low, high) := halvesAt b i
    (mirrored * low.conj, mirrored * high.conj)
  else
    let (low, high) := halvesAt b (n - i)
    (mirrored * low, mirrored * high)

/-- The least remainder that is not negative, of a word by a positive one. -/
def leastRemainder (x m : Int64) : Int64 :=
  if x % m < 0 then x % m + m else x % m

/-- The coefficient modulo `m` whose products of halves are given: low by low and high by low in
the parts of the first number, low by high and high by high in those of the second.
-/
def joinHalves (m : Int64) (first second : Complex K) : Int64 :=
  let reduce (x : K) : Int64 := leastRemainder (RealScalar.round x) m
  let shift : Int64 := Int64.ofNat splitBits
  let low := reduce first.re
  let middle := (reduce first.im + reduce second.re) % m
  let high := reduce second.im
  (low + (middle <<< shift) % m + (((high <<< shift) % m) <<< shift)) % m

variable (K) in
/-- The product modulo `m` of two polynomials whose coefficients need not be reduced. -/
def multiplyMod (a b : List UInt32) (m : UInt32) : Kernel (List UInt32) :=
  if m = 0 ∨ powerOfTwo 31 ≤ m.toNat then
    Logged.fail (.violated (.modulusOutOfRange m.toNat))
  else if a.isEmpty || b.isEmpty then
    pure []
  else do
    let length := a.length + b.length - 1
    let n := length.nextPowerOfTwo
    let plan ← Plan.withCapacity (max n 2)
    let imageOf (v : List UInt32) : Array (Complex K) :=
      (plan.transform (CoeffList.resize n (v.map splitCoeff))).toArray
    let imageA := imageOf a
    let imageB := imageOf b
    let products := (List.range n).map (halfProductsAt imageA imageB)
    let first := plan.transform (products.map Prod.fst)
    let second := plan.transform (products.map Prod.snd)
    let joined := List.zipWith (joinHalves (Int64.ofNat m.toNat)) first second
    pure ((joined.take length).map (·.toUInt64.toUInt32))

end FastAlgebra
