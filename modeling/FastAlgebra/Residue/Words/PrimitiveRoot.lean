import FastAlgebra.Residue.RootOfUnity
import FastAlgebra.Residue.Words.RootOfUnity

/-! Generators by machine words alone. Trial division squares its divisor at every stage, and the
square is checked like every other step. A division that would be repeated forever has no result.
-/

namespace FastAlgebra

namespace CheckedWord

/-- The quotient, which a division by zero does not have. -/
def quotient {w : Nat} (x y : BitVec w) : Option (BitVec w) :=
  if y = 0 then none else some (x / y)

/-- What is left of `n` once every factor `d` is taken out. Where dividing by `d` does not lessen
`n`, it would never come to an end.
-/
def withoutFactor (d n : BitVec 64) : Option (BitVec 64) := do
  let rest ← remainder n d
  if rest = 0 then
    let left ← quotient n d
    if _ : left < n then
      withoutFactor d left
    else
      none
  else
    pure n
termination_by n.toNat
decreasing_by exact ‹left < n›

/-- The factors that trial division finds in `n` from the divisor `d` on. -/
def factorsFrom (d n : BitVec 64) : Option (List (BitVec 64)) := do
  let square ← mul d d
  if square ≤ n then
    let rest ← remainder n d
    let left ← (if rest = 0 then withoutFactor d n else pure n)
    match _ : add d 1 with
    | some next => (if rest = 0 then (d :: ·) else id) <$> factorsFrom next left
    | none => none
  else if 1 < n then
    pure [n]
  else
    pure []
termination_by powerOfTwo 64 - d.toNat
decreasing_by
  have number := toNat_of_standingFor_eq ‹add d 1 = some _›
  have below : next.toNat < powerOfTwo 64 := next.isLt
  rw [toNat_one] at number
  omega

/-- The first word from `q` on and below `bound` that passes the test, if there is one. -/
def leastFrom? (test : BitVec 64 → Option Bool) (bound q : BitVec 64)
    : Option (Option (BitVec 64)) :=
  if _ : q < bound then do
    if ← test q then
      pure (some q)
    else
      match _ : add q 1 with
      | some next => leastFrom? test bound next
      | none => none
  else
    some none
termination_by bound.toNat - q.toNat
decreasing_by
  have below : q.toNat < bound.toNat := ‹q < bound›
  have number := toNat_of_standingFor_eq ‹add q 1 = some _›
  rw [toNat_one] at number
  omega

end CheckedWord

namespace ResidueWord

variable (m : Modulus)

/-- The prime factors of the group order. -/
def orderFactors : Option (List (BitVec 64)) := do
  let less ← CheckedWord.sub m.bits 1
  CheckedWord.factorsFrom 2 less

/-- No power of the word to the group order over one of the factors is one. The powers behind the
first one that is are not computed.
-/
def hasFullOrder (factors : List (BitVec 64)) (g : BitVec 64) : Option Bool :=
  factors.allM fun factor => do
    let less ← CheckedWord.sub m.bits 1
    let exponent ← CheckedWord.quotient less factor
    let power ← pow m g ⟨exponent⟩
    pure (power != 1)

/-- The least word of full order. Where there is none below the modulus, the answer is one. -/
def primitiveRoot : Option (BitVec 64) :=
  if m.bits = 2 then
    some 1
  else do
    let factors ← orderFactors m
    let found ← CheckedWord.leastFrom? (hasFullOrder m factors) m.bits 2
    pure (found.getD 1)

end ResidueWord

end FastAlgebra
