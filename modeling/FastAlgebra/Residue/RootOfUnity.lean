import FastAlgebra.Residue.Basic
import FastAlgebra.Dyadic

/-! Roots of unity modulo a prime. Those whose order is a power of two come from the least
element that is not a square; a generator of all units is found by trying candidates against
the prime factors of the group order.
-/

namespace FastAlgebra

namespace Modulus

/-- The largest `k` such that `2 ^ k` divides the modulus less one. Transforms over the residues
are limited to the length `2 ^ k`.
-/
def twoAdicity (m : Modulus) : Nat :=
  factorsOfTwo (m.toNat - 1)

/-- The least number that Euler's criterion shows not to be a square. -/
def leastNonSquare? (m : Modulus) : Option Nat :=
  leastBelow? (fun q => m.powMod q ((m.toNat - 1) / 2) == m.toNat - 1) 2 m.toNat

/-- A number of multiplicative order `2 ^ twoAdicity` modulo a prime: the odd part of the group
order is taken out of the least non-square.
-/
def dyadicRoot (m : Modulus) : Nat :=
  if m.toNat ≤ 2 then
    1 % m.toNat
  else
    match m.leastNonSquare? with
    | some q => m.powMod q ((m.toNat - 1) >>> m.twoAdicity)
    | none => 1

end Modulus

namespace Residue

/-- The residue from which all roots of unity of dyadic order are taken. -/
def dyadicRoot (m : Modulus) : Residue m :=
  ofNat m.dyadicRoot

/-- A root of unity of the given order, if that is a power of two dividing the group order. -/
def rootOfUnity? {m : Modulus} (order : Nat) : Option (Residue m) :=
  if IsDyadic order ∧ order.log2 ≤ m.twoAdicity then
    some ((dyadicRoot m).pow (powerOfTwo (m.twoAdicity - order.log2)))
  else
    none

end Residue

/-- What is left of `n` once every factor `d` is taken out. -/
def withoutFactor (d n : Nat) : Nat :=
  if 1 < d ∧ 0 < n ∧ n % d = 0 then withoutFactor d (n / d) else n
termination_by n
decreasing_by exact Nat.div_lt_self (by omega) (by omega)

theorem withoutFactor_le (d n : Nat) : withoutFactor d n ≤ n := by
  fun_induction withoutFactor d n with
  | case1 n h ih => exact Nat.le_trans ih (Nat.div_le_self n d)
  | case2 n h => exact Nat.le_refl n

/-- A stage of trial division: the divisor to be tried, and what is left of the number. -/
structure TrialDivision where
  divisor : Nat
  rest : Nat

namespace TrialDivision

/-- The trials stop at the square root of what is left. -/
def Continues (trial : TrialDivision) : Prop :=
  trial.divisor * trial.divisor ≤ trial.rest

instance (trial : TrialDivision) : Decidable trial.Continues :=
  inferInstanceAs (Decidable (_ ≤ _))

/-- Takes the divisor out and moves on to the next one. -/
def next (trial : TrialDivision) : TrialDivision where
  divisor := trial.divisor + 1
  rest := withoutFactor trial.divisor trial.rest

/-- Each stage brings the divisor closer to what is left. -/
theorem next_closer (trial : TrialDivision) (continues : trial.Continues)
    : trial.next.rest + 1 - trial.next.divisor < trial.rest + 1 - trial.divisor := by
  have square : trial.divisor * trial.divisor ≤ trial.rest := continues
  have bound : trial.divisor ≤ trial.rest := by
    rcases Nat.eq_zero_or_pos trial.divisor with zero | positive
    · omega
    · exact Nat.le_trans (Nat.le_mul_of_pos_left _ positive) square
  have := withoutFactor_le trial.divisor trial.rest
  simp only [next]
  omega

/-- The divisors that are found from a stage on. What is left at the end is one or a prime. -/
def factors (trial : TrialDivision) : List Nat :=
  if trial.Continues then
    if trial.rest % trial.divisor = 0 then
      trial.divisor :: trial.next.factors
    else
      trial.next.factors
  else if 1 < trial.rest then
    [trial.rest]
  else
    []
termination_by trial.rest + 1 - trial.divisor
decreasing_by all_goals exact next_closer trial ‹_›

end TrialDivision

/-- The distinct prime factors of `n`, in ascending order. -/
def distinctPrimeFactors (n : Nat) : List Nat :=
  (TrialDivision.mk 2 n).factors

/-- The least generator of the units modulo a prime: no power of it to the group order over a
prime factor is one. Where nothing below the modulus qualifies the answer is one.
-/
def Modulus.primitiveRoot (m : Modulus) : Nat :=
  if m.toNat = 2 then
    1
  else
    let order := m.toNat - 1
    let factors := distinctPrimeFactors order
    (leastBelow? (fun g => factors.all fun f => m.powMod g (order / f) != 1) 2 m.toNat).getD 1

end FastAlgebra
