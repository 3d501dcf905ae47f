import FastAlgebra.Residue.Basic

/-! The operations on residues by machine words alone. A residue is a word of 64 bits, as its
modulus is, and products are formed in 128 bits. Every step is checked against the arithmetic of
numbers: a run ends without a result where a word would not stand for the number that is meant, be
it above or below the range of its width.
-/

namespace FastAlgebra

namespace CheckedWord

variable {w : Nat}

/-- The word, if it stands for the number. -/
def standingFor (number : Int) (word : BitVec w) : Option (BitVec w) :=
  if (word.toNat : Int) = number then some word else none

theorem toNat_of_standingFor_eq {number : Int} {word found : BitVec w}
    (exact : standingFor number word = some found)
    : (found.toNat : Int) = number := by
  rw [standingFor] at exact
  split at exact
  · rename_i same
    rwa [← Option.some.inj exact]
  · exact nomatch exact

def add (x y : BitVec w) : Option (BitVec w) :=
  standingFor (x.toNat + y.toNat) (x + y)

def sub (x y : BitVec w) : Option (BitVec w) :=
  standingFor (x.toNat - y.toNat) (x - y)

def mul (x y : BitVec w) : Option (BitVec w) :=
  standingFor (x.toNat * y.toNat) (x * y)

/-- The remainder, which a division by zero does not have. -/
def remainder (x y : BitVec w) : Option (BitVec w) :=
  if y = 0 then none else some (x % y)

/-- The same number in another width. -/
def convert (v : Nat) (x : BitVec w) : Option (BitVec v) :=
  standingFor x.toNat (x.setWidth v)

end CheckedWord

def Modulus.bits (m : Modulus) : BitVec 64 :=
  m.word.toBitVec

def Residue.bits {m : Modulus} (x : Residue m) : BitVec 64 :=
  x.word.toBitVec

namespace ResidueWord

variable (m : Modulus)

def ofWord (value : UInt64) : Option (BitVec 64) :=
  CheckedWord.remainder value.toBitVec m.bits

/-- The residue of the absolute value, taken from the modulus for a number below zero. Nothing is
taken from the modulus for a multiple of it, so the result is never the modulus itself.
-/
def ofSigned (value : Int64) : Option (BitVec 64) := do
  let residue ← ofWord m (Residue.magnitude value)
  if value < 0 ∧ residue ≠ 0 then
    CheckedWord.sub m.bits residue
  else
    pure residue

def add (x y : BitVec 64) : Option (BitVec 64) := do
  let sum ← CheckedWord.add x y
  if m.bits ≤ sum then
    CheckedWord.sub sum m.bits
  else
    pure sum

def sub (x y : BitVec 64) : Option (BitVec 64) :=
  if y ≤ x then
    CheckedWord.sub x y
  else do
    let raised ← CheckedWord.add x m.bits
    CheckedWord.sub raised y

def neg (x : BitVec 64) : Option (BitVec 64) :=
  if x = 0 then some x else CheckedWord.sub m.bits x

/-- The product in twice the width, reduced before it is brought back. -/
def mul (x y : BitVec 64) : Option (BitVec 64) := do
  let wideX ← CheckedWord.convert 128 x
  let wideY ← CheckedWord.convert 128 y
  let wideModulus ← CheckedWord.convert 128 m.bits
  let product ← CheckedWord.mul wideX wideY
  let reduced ← CheckedWord.remainder product wideModulus
  CheckedWord.convert 64 reduced

def one : Option (BitVec 64) :=
  CheckedWord.remainder 1 m.bits

/-- Multiplies `result` by the powers of `base` that the binary digits of the exponent select. -/
def powFrom (result base : BitVec 64) (exponent : Nat) : Option (BitVec 64) :=
  if exponent = 0 then
    some result
  else do
    let next ← (if exponent % 2 = 1 then mul m result base else some result)
    let square ← mul m base base
    powFrom next square (exponent / 2)
termination_by exponent
decreasing_by omega

def pow (x : BitVec 64) (exponent : UInt64) : Option (BitVec 64) := do
  let start ← one m
  let base ← CheckedWord.remainder x m.bits
  powFrom m start base exponent.toNat

def sum (terms : List (BitVec 64)) : Option (BitVec 64) :=
  terms.foldlM (add m) 0

def product (factors : List (BitVec 64)) : Option (BitVec 64) := do
  let start ← one m
  factors.foldlM (mul m) start

end ResidueWord

end FastAlgebra
