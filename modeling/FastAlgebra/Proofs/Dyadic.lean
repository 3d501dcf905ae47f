import Mathlib
import FastAlgebra.Dyadic
import FastAlgebra.Proofs.Logged

/-! Powers of two and the chain of doublings. A loop along the doublings is handled by a property
that one doubling preserves: it then holds at some number that is not below the bound.
-/

namespace FastAlgebra

@[simp]
theorem powerOfTwo_eq (k : Nat) : powerOfTwo k = 2 ^ k :=
  Nat.one_shiftLeft k

-----------------------------------------------------------------------------------------
-- Rounding up to a power of two
-----------------------------------------------------------------------------------------

open private Nat.nextPowerOfTwo.go from Init.Data.Nat.Power2.Basic

private theorem le_nextPowerOfTwo_go (n power : Nat) (positive : power > 0)
    : n ≤ Nat.nextPowerOfTwo.go n power positive := by
  fun_induction Nat.nextPowerOfTwo.go n power positive with
  | case1 power positive below ih => exact ih
  | case2 power positive reached => exact Nat.not_lt.mp reached

/-- Rounding up does not fall below the number. -/
theorem le_nextPowerOfTwo (n : Nat) : n ≤ n.nextPowerOfTwo :=
  le_nextPowerOfTwo_go n 1 _

private theorem nextPowerOfTwo_go_le {n k : Nat} (bound : n ≤ 2 ^ k) (power : Nat)
    (positive : power > 0) (dyadic : ∃ j, j ≤ k ∧ power = 2 ^ j)
    : Nat.nextPowerOfTwo.go n power positive ≤ 2 ^ k := by
  fun_induction Nat.nextPowerOfTwo.go n power positive with
  | case1 power positive below ih =>
      obtain ⟨j, _, rfl⟩ := dyadic
      have smaller : j < k := (Nat.pow_lt_pow_iff_right (by omega)).mp (below.trans_le bound)
      exact ih ⟨j + 1, smaller, (pow_succ 2 j).symm⟩
  | case2 power positive reached =>
      obtain ⟨j, smaller, rfl⟩ := dyadic
      exact Nat.pow_le_pow_right (by omega) smaller

/-- Rounding up stops at the first power of two that is reached. -/
theorem nextPowerOfTwo_le {n k : Nat} (bound : n ≤ 2 ^ k) : n.nextPowerOfTwo ≤ 2 ^ k :=
  nextPowerOfTwo_go_le bound 1 _ ⟨0, Nat.zero_le k, rfl⟩

theorem exists_nextPowerOfTwo_eq (n : Nat) : ∃ k, n.nextPowerOfTwo = 2 ^ k :=
  Nat.isPowerOfTwo_nextPowerOfTwo n

/-- A power of two is one that rounding up leaves alone. -/
theorem isDyadic_iff (n : Nat) : IsDyadic n ↔ ∃ k, n = 2 ^ k := by
  constructor
  · intro same
    obtain ⟨k, rounded⟩ := exists_nextPowerOfTwo_eq n
    exact ⟨k, same.symm.trans rounded⟩
  · rintro ⟨k, rfl⟩
    exact Nat.le_antisymm (nextPowerOfTwo_le (Nat.le_refl _)) (le_nextPowerOfTwo _)

theorem isDyadic_two_pow (k : Nat) : IsDyadic (2 ^ k) :=
  (isDyadic_iff _).mpr ⟨k, rfl⟩

theorem isDyadic_nextPowerOfTwo (n : Nat) : IsDyadic n.nextPowerOfTwo :=
  (isDyadic_iff _).mpr (exists_nextPowerOfTwo_eq n)

/-- A power of two below a number doubles to one that is not above its rounding. -/
theorem two_pow_succ_le_nextPowerOfTwo {n s : Nat} (below : 2 ^ s < n)
    : 2 ^ (s + 1) ≤ n.nextPowerOfTwo := by
  obtain ⟨k, rounded⟩ := exists_nextPowerOfTwo_eq n
  have reached := le_nextPowerOfTwo n
  rw [rounded] at reached ⊢
  have smaller : s < k := (Nat.pow_lt_pow_iff_right (by omega)).mp (below.trans_le reached)
  exact Nat.pow_le_pow_right (by omega) smaller

-----------------------------------------------------------------------------------------
-- Factors of two
-----------------------------------------------------------------------------------------

/-- Taking all factors of two out of a positive number leaves an odd one. -/
theorem exists_odd_eq_factorsOfTwo {n : Nat} (positive : n ≠ 0)
    : ∃ half, n = 2 ^ factorsOfTwo n * (2 * half + 1) := by
  fun_induction factorsOfTwo n with
  | case1 => exact absurd rfl positive
  | case2 n _ odd => exact ⟨n / 2, by omega⟩
  | case3 n _ even ih =>
      obtain ⟨half, split⟩ := ih (by omega)
      refine ⟨half, ?_⟩
      rw [pow_succ, mul_assoc, mul_left_comm, ← split]
      omega

/-- The powers of two that divide a positive number are those up to its factors of two. -/
theorem two_pow_dvd_iff {n : Nat} (positive : n ≠ 0) (k : Nat)
    : 2 ^ k ∣ n ↔ k ≤ factorsOfTwo n := by
  obtain ⟨half, split⟩ := exists_odd_eq_factorsOfTwo positive
  constructor
  · intro divides
    have coprime : (2 ^ k).Coprime (2 * half + 1) := by
      apply Nat.Coprime.pow_left
      simp
    rw [split] at divides
    exact (Nat.pow_dvd_pow_iff_le_right Nat.one_lt_two).mp (coprime.dvd_of_dvd_mul_right divides)
  · intro below
    rw [split]
    exact dvd_mul_of_dvd_left (pow_dvd_pow 2 below) _

/-- The factors of two are counted by the place of the last binary digit one, by induction on it. -/
theorem factorsOfTwo_eq_of_testBit {n k : Nat} (one : n.testBit k = true)
    (zeros : ∀ i < k, n.testBit i = false)
    : factorsOfTwo n = k := by
  have positive : n ≠ 0 := by
    rintro rfl
    simp at one
  induction k generalizing n with
  | zero =>
      rw [Nat.testBit_zero, decide_eq_true_eq] at one
      rw [factorsOfTwo, if_neg positive, if_pos one]
  | succ k ih =>
      have even := zeros 0 (Nat.succ_pos k)
      rw [Nat.testBit_zero, decide_eq_false_iff_not] at even
      rw [Nat.testBit_succ] at one
      have half := ih one (fun i below => by
        rw [← Nat.testBit_succ]
        exact zeros (i + 1) (Nat.succ_lt_succ below)) (by omega)
      rw [factorsOfTwo, if_neg positive, if_neg even, half]

/-- The last binary digit one is at the place that counts the factors of two. -/
theorem testBit_factorsOfTwo {n : Nat} (positive : n ≠ 0)
    : n.testBit (factorsOfTwo n) = true ∧ ∀ i < factorsOfTwo n, n.testBit i = false := by
  obtain ⟨half, split⟩ := exists_odd_eq_factorsOfTwo positive
  generalize factorsOfTwo n = k at split
  subst split
  constructor
  · simp [Nat.testBit_two_pow_mul]
  · intro i below
    simp [Nat.testBit_two_pow_mul, below.not_ge]

/-- Taking one from a number changes its last digit one and the zeros behind it, so it is only this
digit that the two do not have in common, by induction on its place.
-/
theorem testBit_land_pred {n : Nat} (positive : n ≠ 0) (i : Nat)
    : (n &&& (n - 1)).testBit i = (n.testBit i && decide (i ≠ factorsOfTwo n)) := by
  fun_induction factorsOfTwo n generalizing i with
  | case1 => exact absurd rfl positive
  | case2 n _ odd =>
      rw [Nat.testBit_and]
      cases i with
      | zero =>
          have even : (n - 1) % 2 ≠ 1 := by omega
          simp [Nat.testBit_zero, even]
      | succ i =>
          have half : (n - 1) / 2 = n / 2 := by omega
          simp [Nat.testBit_succ, half]
  | case3 n _ even ih =>
      rw [Nat.testBit_and]
      cases i with
      | zero => simp [Nat.testBit_zero, even]
      | succ i =>
          have half : (n - 1) / 2 = n / 2 - 1 := by omega
          have later := ih (by omega) i
          rw [Nat.testBit_and] at later
          rw [Nat.testBit_succ, Nat.testBit_succ, half, later]
          simp

theorem factorsOfTwo_two_pow (k : Nat) : factorsOfTwo (2 ^ k) = k := by
  apply factorsOfTwo_eq_of_testBit Nat.testBit_two_pow_self
  intro i below
  exact Nat.testBit_two_pow_of_ne (by omega)

-----------------------------------------------------------------------------------------
-- Loops along the doublings
-----------------------------------------------------------------------------------------

/-- The doublings of one are the powers of two below the bound. -/
theorem exists_of_mem_doublings {k n s : Nat} (member : k ∈ doublings (2 ^ s) n)
    : k < n ∧ ∃ u, k = 2 ^ u := by
  generalize first : 2 ^ s = j at member
  fun_induction doublings j n generalizing s with
  | case1 j below ih =>
      rcases List.mem_cons.mp member with rfl | later
      · exact ⟨below.2, s, first.symm⟩
      · exact ih (s := s + 1) (by rw [pow_succ', first]) later
  | case2 j reached => exact absurd member List.not_mem_nil

/-- What one doubling preserves holds at the end of a loop, by induction along the chain. -/
theorem foldl_doublings {α : Type} {motive : Nat → α → Prop} {f : α → Nat → α} {k n : Nat}
    {start : α} (positive : 0 < k) (first : motive k start)
    (next : ∀ k x, 0 < k → k < n → motive k x → motive (2 * k) (f x k))
    : ∃ last, n ≤ last ∧ motive last ((doublings k n).foldl f start) := by
  fun_induction doublings k n generalizing start with
  | case1 k below ih =>
      exact ih (by omega) (next k start below.1 below.2 first)
  | case2 k reached => exact ⟨k, by omega, first⟩

/-- What one successful doubling preserves holds at the end of a loop that can fail. -/
theorem foldlM_doublings {ε α : Type} {motive : Nat → α → Prop} {f : α → Nat → Except ε α}
    {k n : Nat} {start : α} (positive : 0 < k) (first : motive k start)
    (next : ∀ k x, 0 < k → k < n → motive k x → ∃ y, f x k = .ok y ∧ motive (2 * k) y)
    : ∃ last y, n ≤ last ∧ (doublings k n).foldlM f start = .ok y ∧ motive last y := by
  fun_induction doublings k n generalizing start with
  | case1 k below ih =>
      obtain ⟨middle, succeeds, holds⟩ := next k start below.1 below.2 first
      obtain ⟨last, y, reached, rest, done⟩ := ih (by omega) holds
      exact ⟨last, y, reached, by rw [List.foldlM_cons, succeeds]; exact rest, done⟩
  | case2 k reached => exact ⟨k, start, by omega, rfl, first⟩

/-- What one doubling that yields a value preserves holds at the end of a loop of runs. -/
theorem Logged.foldlM_doublings_yields {ε α : Type} {motive : Nat → α → Prop}
    {f : α → Nat → Logged ε α} {k n : Nat} {start : α} (positive : 0 < k)
    (first : motive k start)
    (next : ∀ k x, 0 < k → k < n → motive k x → ∃ y, (f x k).Yields y ∧ motive (2 * k) y)
    : ∃ last y, n ≤ last ∧ ((doublings k n).foldlM f start).Yields y ∧ motive last y := by
  fun_induction doublings k n generalizing start with
  | case1 k below ih =>
      obtain ⟨middle, succeeds, holds⟩ := next k start below.1 below.2 first
      obtain ⟨last, y, reached, rest, done⟩ := ih (by omega) holds
      exact ⟨last, y, reached, by rw [List.foldlM_cons]; exact succeeds.bind rest, done⟩
  | case2 k reached => exact ⟨k, start, by omega, rfl, first⟩

/-- A loop in which every step either fails with one fault or preserves what no end of the loop can
have fails with that fault.
-/
theorem Logged.foldlM_doublings_fails {ε α : Type} {motive : Nat → α → Prop}
    {f : α → Nat → Logged ε α} {fault : Fault} {k n : Nat} {start : α} (positive : 0 < k)
    (first : motive k start)
    (next : ∀ k x, 0 < k → k < n → motive k x
      → (f x k).Fails fault ∨ ∃ y, (f x k).Yields y ∧ motive (2 * k) y)
    (unfinished : ∀ last y, n ≤ last → ¬ motive last y)
    : ((doublings k n).foldlM f start).Fails fault := by
  fun_induction doublings k n generalizing start with
  | case1 k below ih =>
      rw [List.foldlM_cons]
      rcases next k start below.1 below.2 first with stops | ⟨middle, succeeds, holds⟩
      · exact stops.bind _
      · exact (succeeds.outcome_bind _).trans (ih (by omega) holds)
  | case2 k reached => exact absurd first (unfinished k start (by omega))

-----------------------------------------------------------------------------------------
-- Searching below a bound
-----------------------------------------------------------------------------------------

/-- A search finds the least number that passes the test, by induction on its run. -/
theorem leastBelow?_eq_some_iff {test : Nat → Bool} {k bound n : Nat}
    : leastBelow? test k bound = some n
      ↔ IsLeast {i | k ≤ i ∧ i < bound ∧ test i = true} n := by
  fun_induction leastBelow? test k bound with
  | case1 k below passes =>
      have least : IsLeast {i | k ≤ i ∧ i < bound ∧ test i = true} k :=
        ⟨⟨Nat.le_refl k, below, passes⟩, fun _ other => other.1⟩
      rw [Option.some.injEq]
      exact ⟨fun same => same ▸ least, fun other => least.unique other⟩
  | case2 k below fails ih =>
      have later : {i | k ≤ i ∧ i < bound ∧ test i = true}
          = {i | k + 1 ≤ i ∧ i < bound ∧ test i = true} := by
        ext i
        refine and_congr_left fun rest => ⟨fun reached => ?_, Nat.le_of_succ_le⟩
        exact Nat.lt_of_le_of_ne reached fun same => fails (same ▸ rest.2)
      rw [ih, later]
  | case3 k reached =>
      refine iff_of_false nofun fun least => ?_
      have inside := least.1.1.trans_lt least.1.2.1
      exact reached inside

/-- A search that has something to find from `k` on finds something that passes the test. -/
theorem exists_leastBelow?_eq {test : Nat → Bool} {k bound : Nat}
    (witness : ∃ n, k ≤ n ∧ n < bound ∧ test n = true)
    : ∃ n, leastBelow? test k bound = some n ∧ k ≤ n ∧ n < bound ∧ test n = true := by
  have passing : Set.Nonempty {i | k ≤ i ∧ i < bound ∧ test i = true} := witness
  have least : IsLeast {i | k ≤ i ∧ i < bound ∧ test i = true} (sInf _) :=
    ⟨Nat.sInf_mem passing, fun _ other => Nat.sInf_le other⟩
  exact ⟨_, leastBelow?_eq_some_iff.mpr least, least.1⟩

end FastAlgebra
