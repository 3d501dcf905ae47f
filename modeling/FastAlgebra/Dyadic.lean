/-! Powers of two: recognising them, counting the factors of two in a number, and the chain of
doublings that the fast algorithms walk along.
-/

namespace FastAlgebra

def powerOfTwo (k : Nat) : Nat :=
  1 <<< k

def IsDyadic (n : Nat) : Prop :=
  n.nextPowerOfTwo = n

instance (n : Nat) : Decidable (IsDyadic n) :=
  inferInstanceAs (Decidable (_ = _))

/-- How often two divides a word. Zero, which every power of two divides, counts as all 64 bits
of the word.
-/
def factorsOfTwo (n : Nat) : Nat :=
  if n = 0 then 64 else if n % 2 = 1 then 0 else factorsOfTwo (n / 2) + 1
termination_by n
decreasing_by omega

/-- The chain `k, 2k, 4k, …` as far as it stays below `n`. -/
def doublings (k n : Nat) : List Nat :=
  if 0 < k ∧ k < n then k :: doublings (2 * k) n else []
termination_by n - k
decreasing_by omega

/-- The least number from `k` on and below `bound` that passes the test. -/
def leastBelow? (test : Nat → Bool) (k bound : Nat) : Option Nat :=
  if k < bound then
    if test k then some k else leastBelow? test (k + 1) bound
  else
    none
termination_by bound - k

end FastAlgebra
