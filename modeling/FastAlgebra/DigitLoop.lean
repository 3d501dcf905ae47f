import FastAlgebra.Nimber.Words

/-! The loops along the binary digits of a machine word: powers by squaring and multiples of one by
doubling. A ring takes the loop on its own operations unless it has another one. Residues are raised
to powers on their words, and so are nimbers, whose squares are the sums of the diagonal entries of
the table. These runs have no result if a step has none.
-/

namespace FastAlgebra

/-- Combines `result` with the copies of `base` that the digits of a word select. The lowest digit
is looked at and shifted out until none is left.
-/
def alongDigits {M : Type → Type} [Monad M] {R : Type} (combine : R → R → M R) (double : R → M R)
    (result base : R) (count : UInt64)
    : M R :=
  if _ : count = 0 then
    pure result
  else do
    let next ← (if count &&& 1 = 1 then combine result base else pure result)
    let doubled ← double base
    alongDigits combine double next doubled (count >>> 1)
termination_by count.toNat
decreasing_by
  rename_i nonzero
  have positive : count.toNat ≠ 0 := fun zero => nonzero (UInt64.toNat_inj.mp zero)
  rw [UInt64.toNat_shiftRight, Nat.shiftRight_eq_div_pow]
  exact Nat.div_lt_self (Nat.pos_of_ne_zero positive) (by decide)

/-- The power in a ring without a loop of its own. -/
def defaultPow {R : Type} [One R] [Mul R] (x : R) (exponent : UInt64) : R :=
  Id.run (alongDigits (fun y z => pure (y * z)) (fun y => pure (y * y)) 1 x exponent)

/-- The image of a word in a ring without a loop of its own. -/
def defaultOfWord {R : Type} [Zero R] [One R] [Add R] (n : UInt64) : R :=
  Id.run (alongDigits (fun y z => pure (y + z)) (fun y => pure (y + y)) 0 1 n)

/-- The power of any word modulo the modulus, on words. -/
def ResidueWord.powAlong (m : Modulus) (x : BitVec 64) (exponent : UInt64)
    : Option (BitVec 64) := do
  let start ← one m
  let base ← CheckedWord.remainder x m.bits
  alongDigits (mul m) (fun y => mul m y y) start base exponent

def NimWord.pow (x exponent : UInt64) : Option UInt64 :=
  alongDigits mul square 1 x exponent

end FastAlgebra
