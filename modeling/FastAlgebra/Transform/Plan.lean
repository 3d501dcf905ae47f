import FastAlgebra.CoeffList
import FastAlgebra.Event
import FastAlgebra.Transform.Scalar

/-! The fast transform of dyadic length, with tables that are kept from one transform to the
next. A plan holds the table of reversed indices and the table of roots; both have the length of
the longest transform that was asked for so far, and at least two. The answer of a transform
does not depend on how far the tables reach.
-/

namespace FastAlgebra

/-- The tables of a transform. The powers of the root of order `2k` stand from position `k` on,
for each power of two `k`.
-/
structure Plan (T : Type) where
  reversal : Array Nat
  roots : Array T

/-- Each index below the dyadic number `n` with its binary digits in reverse. The reversal of an
index follows from that of its half.
-/
def bitReversal (n : Nat) : Array Nat :=
  n.fold (fun i _ table => table.push ((table.getD (i / 2) 0 ||| (i % 2) * n) >>> 1)) #[]

/-- One level of the transform: in each block of length `2k` the halves are joined, the second
one weighted by the powers of the root of order `2k`.
-/
def butterflies {T : Type} [TransformScalar T] (roots : Array T) (a : Array T) (k : Nat)
    : Array T :=
  Array.ofFn fun i : Fin a.size =>
    let weight := roots.getD (k + i % k) 0
    if i / k % 2 = 0 then
      a.getD i 0 + weight * a.getD (i + k) 0
    else
      a.getD (i - k) 0 - weight * a.getD i 0

/-- Swaps the entries `i` and `-i` modulo the length, which turns the transform into its inverse
up to a factor.
-/
def reflect {T : Type} : List T → List T
  | [] => []
  | x :: rest => x :: rest.reverse

namespace Plan

variable {T : Type} [TransformScalar T]

/-- The tables for the lengths one and two. -/
def base : Plan T where
  reversal := #[0, 1]
  roots := #[1, 1]

/-- The longest transform that the tables cover. -/
def capacity (plan : Plan T) : Nat :=
  plan.roots.size

/-- Grows the tables to cover the length `n`. The length has to be a power of two that the
scalars support, unless the tables cover it already.
-/
def reserve (plan : Plan T) (n : Nat) : Kernel (Plan T) :=
  if n ≤ plan.capacity then
    pure plan
  else if ¬ IsDyadic n then
    Logged.fail (.violated (.lengthNotPowerOfTwo n))
  else if TransformScalar.maxLength T < n then
    Logged.fail (.violated (.lengthAboveMaximum n (TransformScalar.maxLength T)))
  else do
    Logged.emit (.tablesGrown plan.capacity n)
    let roots ← Logged.ofContract
      ((doublings plan.capacity n).foldlM TransformScalar.extendRoots plan.roots)
    pure ⟨bitReversal n, roots⟩

/-- A plan whose tables cover the length `n`. -/
def withCapacity (n : Nat) : Kernel (Plan T) :=
  base.reserve n

/-- Gets ready for a transform of length `n`: zero or a power of two. Up to the length one there
is nothing to do.
-/
def prepare (plan : Plan T) (n : Nat) : Kernel (Plan T) :=
  if n ≠ 0 ∧ ¬ IsDyadic n then
    Logged.fail (.violated (.lengthNotPowerOfTwo n))
  else if n ≤ 1 then
    pure plan
  else
    plan.reserve n

/-- The transform of a list that the tables cover: entry `i` of the result is the sum of
`a j * w ^ (i j)` for the root `w` whose order is the length. The entries are gathered in the
order of their reversed indices and then joined level by level.
-/
def transform (plan : Plan T) (a : List T) : List T :=
  let source := a.toArray
  let shift := (plan.reversal.size / source.size).log2
  let gathered := Array.ofFn fun i : Fin source.size =>
    source.getD (plan.reversal.getD i 0 >>> shift) 0
  ((doublings 1 source.size).foldl (butterflies plan.roots) gathered).toList

/-- The transform of a list of any dyadic length that the scalars support. -/
def forward (plan : Plan T) (a : List T) : Kernel (Plan T × List T) := do
  let plan ← plan.prepare a.length
  pure (plan, plan.transform a)

/-- Undoes `forward`. -/
def inverse (plan : Plan T) (a : List T) : Kernel (Plan T × List T) :=
  if a.length ≤ 1 then
    pure (plan, a)
  else do
    let (plan, image) ← plan.forward a
    let factor : T := TransformScalar.inverseLength a.length
    pure (plan, (reflect image).map (· * factor))

/-- The product of two coefficient lists. The transform is as long as the product, rounded up to
a power of two.
-/
def convolve (plan : Plan T) (a b : List T) : Kernel (Plan T × List T) :=
  if a.isEmpty || b.isEmpty then
    pure (plan, [])
  else do
    let length := a.length + b.length - 1
    let n := length.nextPowerOfTwo
    let plan ← plan.prepare n
    let factor : T := TransformScalar.inverseLength n
    let images := List.zipWith (fun x y => x * y * factor)
      (plan.transform (CoeffList.resize n a)) (plan.transform (CoeffList.resize n b))
    pure (plan, (plan.transform (reflect images)).take length)

end Plan

namespace Transform

variable {T : Type} [TransformScalar T]

/-- The transform with a plan of its own. -/
def forward (a : List T) : Kernel (List T) := do
  let plan ← Plan.withCapacity (max a.length 2)
  Prod.snd <$> plan.forward a

/-- The inverse transform with a plan of its own. -/
def inverse (a : List T) : Kernel (List T) := do
  let plan ← Plan.withCapacity (max a.length 2)
  Prod.snd <$> plan.inverse a

/-- The product by transforms with a plan of its own. -/
def convolve (a b : List T) : Kernel (List T) :=
  if a.isEmpty || b.isEmpty then
    pure []
  else do
    let plan ← Plan.withCapacity (max (a.length + b.length - 1).nextPowerOfTwo 2)
    Prod.snd <$> plan.convolve a b

/-- The modulus that transforms use unless another one is named, `119 * 2^23 + 1`. -/
def defaultModulus : Modulus :=
  ⟨119 * 8388608 + 1, by decide, by decide⟩

/-- The product by transforms over the residues of the default modulus. -/
def multiply (a b : List (Residue defaultModulus)) : Kernel (List (Residue defaultModulus)) :=
  convolve a b

end Transform

end FastAlgebra
