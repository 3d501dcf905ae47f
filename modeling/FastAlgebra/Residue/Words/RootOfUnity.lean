import FastAlgebra.Residue.RootOfUnity
import FastAlgebra.Residue.Words

/-! Roots of unity by machine words alone. Numbers of zeros are words of 32 bits, and a shift has a
result only if it moves by fewer places than the word has.
-/

namespace FastAlgebra

namespace CheckedWord

variable {v w : Nat}

theorem toNat_one : (1 : BitVec 64).toNat = 1 :=
  rfl

def shiftLeft (x : BitVec w) (places : BitVec v) : Option (BitVec w) :=
  if places.toNat < w then some (x <<< places) else none

def shiftRight (x : BitVec w) (places : BitVec v) : Option (BitVec w) :=
  if places.toNat < w then some (x >>> places) else none

/-- The number of zeros behind the last one of the binary digits, and all 64 places if there is
none.
-/
def trailingZeros (x : BitVec 64) : BitVec 32 :=
  x.ctz.setWidth 32

end CheckedWord

namespace ResidueWord

variable (m : Modulus)

/-- From `q` on, the first word whose power to `half` is `less` is raised to `odd`. Where there is
none below the modulus, the answer is one.
-/
def oddPowerFrom (less half odd q : BitVec 64) : Option (BitVec 64) :=
  if _ : q < m.bits then do
    let sign ← pow m q ⟨half⟩
    if sign = less then
      pow m q ⟨odd⟩
    else
      match _ : CheckedWord.add q 1 with
      | some next => oddPowerFrom less half odd next
      | none => none
  else
    some 1
termination_by m.bits.toNat - q.toNat
decreasing_by
  have below : q.toNat < m.bits.toNat := ‹q < m.bits›
  have next := CheckedWord.toNat_of_standingFor_eq ‹CheckedWord.add q 1 = some _›
  rw [CheckedWord.toNat_one] at next
  omega

def dyadicRoot : Option (BitVec 64) :=
  if m.bits ≤ 2 then
    one m
  else do
    let less ← CheckedWord.sub m.bits 1
    let odd ← CheckedWord.shiftRight less (CheckedWord.trailingZeros less)
    oddPowerFrom m less (less / 2) odd 2

/-- The word of the root, if there is one, and none at all if some step leaves its width. -/
def rootOfUnity? (order : BitVec 64) : Option (Option (BitVec 64)) := do
  let less ← CheckedWord.sub m.bits 1
  let adicity := CheckedWord.trailingZeros less
  let level := CheckedWord.trailingZeros order
  if IsDyadic order.toNat ∧ level ≤ adicity then
    let places ← CheckedWord.sub adicity level
    let exponent ← CheckedWord.shiftLeft (1 : BitVec 64) places
    let basic ← dyadicRoot m
    let root ← pow m basic ⟨exponent⟩
    pure (some root)
  else
    pure none

end ResidueWord

end FastAlgebra
