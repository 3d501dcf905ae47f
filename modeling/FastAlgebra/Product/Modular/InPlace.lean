import FastAlgebra.Product.Modular
import FastAlgebra.Residue.Words.Inverse

/-! Products modulo any number on two lists that are rewritten where they stand. The transforms of
the operands give way to their two products, a pair of mirrored entries at a time, and both are
transformed back in place. There is no result if a place is missing, or if a word leaves its width
on the way to a coefficient.
-/

namespace FastAlgebra

variable {K : Type} [RealScalar K]

/-- The two halves of a coefficient, cut out of its word. -/
def splitWord (v : UInt32) : Complex K :=
  let mask : UInt32 := (1 <<< UInt32.ofNat splitBits) - 1
  ⟨RealScalar.ofNat (v &&& mask).toNat, RealScalar.ofNat (v >>> UInt32.ofNat splitBits).toNat⟩

/-- The transforms of the low and of the high halves from an entry of the transform of both and the
mirrored entry, scaled for the transform of length `n` back.
-/
def halvesOf (n : Nat) (here there : Complex K) : Complex K × Complex K :=
  let factor : K := RealScalar.ofNat 1 / RealScalar.ofNat 2 / RealScalar.ofNat n
  let low := (here + there.conj).scale factor
  let high := (here - there.conj).scale factor
  (low, ⟨high.im, -high.re⟩)

/-- Two lists of one length: the transforms of the operands, and after that the products of the
first one with the low and the high halves of the second.
-/
structure ImagePair (K : Type) where
  a : Array (Complex K)
  b : Array (Complex K)

namespace ImagePair

/-- Multiplies the mirrored transform `a` with the halves of `b` at `i` and, after a swap, at the
mirrored index.
-/
def multiplyAt? (images : ImagePair K) (i : Nat) : Option (ImagePair K) := do
  let n := images.a.size
  let j := (n - i) &&& (n - 1)
  let here ← images.b[i]?
  let there ← images.b[j]?
  let (low, high) := halvesOf n here there
  let images ←
    if j = i then
      some images
    else do
      let a := images.a.swapIfInBounds i j
      let whole ← a[j]?
      some ⟨a.setIfInBounds j (whole * low), images.b.setIfInBounds j (whole * high)⟩
  let whole ← images.a[i]?
  some ⟨images.a.setIfInBounds i (whole * low.conj), images.b.setIfInBounds i (whole * high.conj)⟩

/-- The indices up to the middle meet all the others at their mirrored places. -/
def multiply? (images : ImagePair K) : Option (ImagePair K) :=
  (List.range (images.a.size / 2 + 1)).foldlM multiplyAt? images

end ImagePair

/-- The remainder by `m` of a word that moves up by the bits of a low half. -/
def raiseWord? (m x : BitVec 64) : Option (BitVec 64) := do
  let raised ← CheckedSigned.shiftLeft x splitBits
  CheckedSigned.remainder raised m

/-- The coefficient modulo `m` whose products of halves are given, on words with a sign. -/
def joinWords? (m : BitVec 64) (first second : Complex K) : Option UInt32 := do
  let reduce (x : K) : Option (BitVec 64) :=
    CheckedSigned.leastRemainder (RealScalar.round x).toBitVec m
  let low ← reduce first.re
  let inner ← reduce first.im
  let outer ← reduce second.re
  let crossed ← CheckedSigned.add inner outer
  let middle ← CheckedSigned.remainder crossed m
  let high ← reduce second.im
  let raised ← raiseWord? m middle
  let sum ← CheckedSigned.add low raised
  let once ← raiseWord? m high
  let twice ← CheckedSigned.shiftLeft once splitBits
  let total ← CheckedSigned.add sum twice
  let joined ← CheckedSigned.remainder total m
  let word ← CheckedWord.convert 32 joined
  some ⟨word⟩

/-- The coefficient of degree `k`, if both lists of products of halves reach it. -/
def joinAt? (m : BitVec 64) (first second : List (Complex K)) (k : Nat) : Option UInt32 := do
  let lows ← first[k]?
  let highs ← second[k]?
  joinWords? m lows highs

variable (K) in
/-- The product modulo `m` in place. -/
def multiplyModInPlace (a b : List UInt32) (m : UInt32) : Kernel (Option (List UInt32)) :=
  if m = 0 ∨ powerOfTwo 31 ≤ m.toNat then
    Logged.fail (.violated (.modulusOutOfRange m.toNat))
  else if a.isEmpty || b.isEmpty then
    pure (some [])
  else do
    let length := a.length + b.length - 1
    let n := length.nextPowerOfTwo
    let plan ← (Plan.withCapacity (max n 2) : Kernel (Plan (Complex K)))
    let (plan, imageA) ← plan.forward (CoeffList.resize n (a.map splitWord))
    let (plan, imageB) ← plan.forward (CoeffList.resize n (b.map splitWord))
    match ImagePair.multiply? ⟨imageA.toArray, imageB.toArray⟩ with
    | none => pure none
    | some products => do
        let (plan, first) ← plan.forward products.a.toList
        let (_, second) ← plan.forward products.b.toList
        pure ((List.range length).mapM (joinAt? (m.toBitVec.setWidth 64) first second))

end FastAlgebra
