import FastAlgebra.CoeffRing
import FastAlgebra.Dyadic

/-! Nimbers below `2^64`: the field whose sum is the exclusive or of two words and whose product
is the one of combinatorial game theory. The product distributes over the sum, so a product of
words is the sum of the products of their binary digits, and those are kept in a table.
-/

namespace FastAlgebra

/-- The nim-product of two numbers below `2 ^ 2 ^ level`. With `F = 2 ^ 2 ^ k`, a number of the
next level is `a F + b` for numbers `a` and `b` of level `k`. The product of `F` and a smaller
number is the ordinary one, and the square of `F` is the sum of `F` and `F / 2`.
-/
def nimProduct : (level x y : Nat) → Nat
  | 0, x, y => x &&& y
  | k + 1, x, y =>
      if x = 0 ∨ y = 0 then
        0
      else
        let width := powerOfTwo k
        let a := x >>> width
        let b := x % powerOfTwo width
        let c := y >>> width
        let d := y % powerOfTwo width
        let high := nimProduct k a c
        let middle := nimProduct k a d ^^^ nimProduct k b c
        ((high ^^^ middle) <<< width)
          ^^^ (nimProduct k b d ^^^ nimProduct k high (powerOfTwo (width - 1)))

/-- The products of the powers of two in a word. -/
def nimTable : Array (Array UInt64) :=
  (Array.range 64).map fun i =>
    (Array.range 64).map fun j => UInt64.ofNat (nimProduct 6 (powerOfTwo i) (powerOfTwo j))

/-- The entry of the table for two digit positions. -/
def nimTableEntry (i j : Nat) : UInt64 :=
  (nimTable.getD i #[]).getD j 0

/-- The positions of the ones among the binary digits of a word, lowest first. -/
def onesOf (w : UInt64) : List Nat :=
  (List.range 64).filter fun i => (w >>> UInt64.ofNat i) &&& 1 == 1

/-- A nimber, by its word. -/
structure Nimber where
  word : UInt64
  deriving DecidableEq

namespace Nimber

instance : Zero Nimber where
  zero := ⟨0⟩

instance : One Nimber where
  one := ⟨1⟩

instance : Add Nimber where
  add x y := ⟨x.word ^^^ y.word⟩

instance : Sub Nimber where
  sub x y := ⟨x.word ^^^ y.word⟩

instance : Neg Nimber where
  neg x := x

/-- The sum over the pairs of ones in the two words. -/
def mul (x y : Nimber) : Nimber :=
  let columns := onesOf y.word
  ⟨(onesOf x.word).foldl
    (fun sum i => columns.foldl (fun sum j => sum ^^^ nimTableEntry i j) sum) 0⟩

instance : Mul Nimber where
  mul := mul

/-- The product with itself. Squares are additive, so only the diagonal of the table counts. -/
def square (x : Nimber) : Nimber :=
  ⟨(onesOf x.word).foldl (fun sum i => sum ^^^ nimTableEntry i i) 0⟩

def pow (x : Nimber) (n : Nat) : Nimber :=
  combineByBits (· * ·) square 1 x n

/-- The inverse. There are `2^64 - 1` units, so it is the power to `2^64 - 2`. -/
def inv? (x : Nimber) : Option Nimber :=
  if x.word = 0 then none else some (x.pow (powerOfTwo 64 - 2))

instance : Ord Nimber where
  compare x y := compare x.word y.word

/-- A star and the word in decimal digits, the usual name of a nim-heap. -/
def display (x : Nimber) : String :=
  s!"*{x.word}"

/-- Two ones cancel, so only the parity of a natural number survives. -/
instance : CoeffField Nimber where
  isZero x := x.word == 0
  isOne x := x.word == 1
  ofNat n := ⟨UInt64.ofNat (n % 2)⟩
  pow := pow
  text := display
  inv? := inv?

end Nimber

end FastAlgebra
