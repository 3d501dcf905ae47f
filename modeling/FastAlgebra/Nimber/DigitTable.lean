import FastAlgebra.Nimber

/-! The table of products by the digits of the exponents. A power of two is the product of the
Fermat powers `2 ^ 2 ^ k` for the digits `k` of its exponent. A Fermat power in only one of two
factors multiplies in as a shift. The square of one in both is `3 / 2` of it, a word of two ones,
and words are multiplied by the products of their ones, which are found in the same way and kept.

A run has no result if a word is shifted by its width or more, if a product is looked up beyond the
places there are, or if one product asks for another that is no closer to the end of the recursion.
-/

namespace FastAlgebra

namespace DigitTable

/-- The products that are found so far, in a place for every two exponents. -/
structure Found where
  places : Vector (Vector (Option UInt64) 64) 64

namespace Found

def nothing : Found :=
  ⟨Vector.replicate 64 (Vector.replicate 64 none)⟩

/-- What stands at the place of two exponents, if there is such a place. -/
def read (found : Found) (i j : Nat) : Option (Option UInt64) :=
  if _ : i < 64 ∧ j < 64 then some found.places[i][j] else none

/-- Writes a product to the place of two exponents, if there is such a place. -/
def write (found : Found) (i j : Nat) (product : UInt64) : Option Found :=
  if _ : i < 64 ∧ j < 64 then
    some ⟨found.places.set i (found.places[i].set j (some product))⟩
  else
    none

end Found

abbrev Run : Type → Type :=
  StateT Found Option

def shifted (word : UInt64) (places : Nat) : Run UInt64 :=
  if places < 64 then pure (word <<< UInt64.ofNat places) else failure

/-- The product that is found already, or else that of the run, which is kept. -/
def recallOr (i j : Nat) (run : Run UInt64) : Run UInt64 := do
  match ← (← get).read i j with
  | some product => pure product
  | none =>
      let product ← run
      set (← (← get).write i j product)
      pure product

/-- The sum over the pairs of ones in two words. -/
def wordProduct (product : Nat → Nat → Run UInt64) (x y : UInt64) : Run UInt64 :=
  (onesOf x).foldlM
    (fun sum i => (onesOf y).foldlM (fun sum j => do return sum ^^^ (← product i j)) sum) 0

/-- What the digits of two exponents add up to: the product of the squares of the Fermat powers in
both factors, and the shift by those in one.
-/
structure Split where
  squares : UInt64
  shift : Nat

/-- Takes the digit `k` of two exponents into account. -/
def Split.add (product : Nat → Nat → Run UInt64) (i j k : Nat) (split : Split) : Run Split :=
  let digit := powerOfTwo k
  if (i ^^^ j) &&& digit ≠ 0 then
    pure { split with shift := split.shift + digit }
  else if i &&& digit ≠ 0 then do
    let square ← shifted 3 (digit - 1)
    let squares ← wordProduct product split.squares square
    pure { split with squares }
  else
    pure split

/-- Takes the digits from `k` on into account, as long as one exponent has any. -/
def splitFrom (product : Nat → Nat → Run UInt64) (i j k : Nat) (split : Split) : Run Split :=
  if i >>> k ≠ 0 ∨ j >>> k ≠ 0 then do
    let next ← split.add product i j k
    splitFrom product i j (k + 1) next
  else
    pure split
termination_by i >>> k + j >>> k
decreasing_by
  simp only [Nat.shiftRight_succ]
  generalize i >>> k = left at *
  generalize j >>> k = right at *
  omega

/-- How far a product is from the end of the recursion: the digits that both exponents have, as a
number. It ends where an exponent has no digit.
-/
def distance (i j : Nat) : Nat :=
  if i = 0 ∨ j = 0 then 0 else (i &&& j) + 1

/-- Only a product that is closer to the end than the limit may be asked for. -/
def below (limit : Nat) (product : (a b : Nat) → distance a b < limit → Run UInt64) (a b : Nat)
    : Run UInt64 :=
  if closer : distance a b < limit then product a b closer else failure

/-- The product of `2 ^ i` and `2 ^ j`. -/
def product (i j : Nat) : Run UInt64 :=
  if i = 0 ∨ j = 0 then
    shifted 1 (i + j)
  else
    recallOr i j do
      let closer := below (distance i j) fun a b _ => product a b
      let split ← splitFrom closer i j 0 ⟨1, 0⟩
      let power ← shifted 1 split.shift
      wordProduct closer split.squares power
termination_by distance i j

/-- The products of the powers of two in a word, row by row. -/
def table? : Option (Array (Array UInt64)) :=
  let rows : Run (Array (Array UInt64)) :=
    (Array.range 64).mapM fun i => (Array.range 64).mapM fun j => product i j
  rows.run' .nothing

end DigitTable

end FastAlgebra
