import Mathlib
import FastAlgebra.InverseTable
import FastAlgebra.Proofs.CoeffRing
import FastAlgebra.Proofs.Residue.Inverse

/-! The table of inverses holds the inverses wherever none of the numbers is zero in the field.
Otherwise the first number that is zero is the characteristic, and it is named in the refusal.
-/

namespace FastAlgebra

/-- None of the numbers `1, …, n - 1` is zero in the field. -/
def NonzeroBelow (F : Type) [CoeffRing F] (n : Nat) : Prop :=
  ∀ i, 0 < i → i < n → (CoeffRing.ofNat i : F) ≠ 0

theorem NonzeroBelow.mono {F : Type} [CoeffRing F] {k n : Nat} (nonzero : NonzeroBelow F n)
    (h : k ≤ n)
    : NonzeroBelow F k :=
  fun i positive below => nonzero i positive (below.trans_le h)

variable {F : Type} [CoeffField F] [LawfulField F]

theorem NonzeroBelow.cast_ne_zero {n i : Nat} (nonzero : NonzeroBelow F n) (h : i + 1 < n)
    : (i : F) + 1 ≠ 0 := by
  rw [← Nat.cast_succ, ← LawfulRing.ofNat_eq_cast]
  exact nonzero (i + 1) (Nat.succ_pos i) h

/-- A table is continued by the inverses of the next numbers, by induction on their count. On the
way down each step is handed the inverse of its own product.
-/
theorem invertFollowing_eq_ok {i count : Nat} (nonzero : NonzeroBelow F (i + count + 1))
    {product : F} (unit : product ≠ 0)
    : invertFollowing i (i : F) product count
      = .ok (product⁻¹, (List.range' (i + 1) count).map fun j : Nat => (j : F)⁻¹) := by
  induction count generalizing i product with
  | zero =>
      rw [invertFollowing, LawfulField.inv?_eq_some unit]
      rfl
  | succ count ih =>
      have next : (i : F) + 1 ≠ 0 := nonzero.cast_ne_zero (by omega)
      have rest := ih (i := i + 1) (nonzero.mono (by omega)) (mul_ne_zero unit next)
      have inverse : (product * ((i : F) + 1))⁻¹ * ((i : F) + 1) = product⁻¹ := by field_simp
      have entry : (product * ((i : F) + 1))⁻¹ * product = ((i : F) + 1)⁻¹ := by field_simp
      rw [Nat.cast_succ] at rest
      simp only [invertFollowing, (LawfulRing.isZero_eq_false_iff _).mpr next, rest,
        List.range'_succ, List.map_cons, Nat.cast_succ, ← inverse, ← entry]
      rfl

/-- Where none of the numbers up to `n` is zero the table holds their inverses behind a zero. -/
theorem inverseTable_eq_ok {n : Nat} (nonzero : NonzeroBelow F (n + 1))
    : inverseTable n = .ok (0 :: (List.range' 1 n).map fun j : Nat => (j : F)⁻¹) := by
  have inverses : invertFollowing 0 ((0 : Nat) : F) 1 n = _ :=
    invertFollowing_eq_ok (by rwa [Nat.zero_add]) one_ne_zero
  rw [Nat.cast_zero] at inverses
  rw [inverseTable, inverses]
  rfl

-----------------------------------------------------------------------------------------
-- The characteristic
-----------------------------------------------------------------------------------------

/-- The characteristic is positive and below the number. -/
structure CharacteristicBelow (F : Type) [CoeffField F] [LawfulField F] (n : Nat) : Prop where
  positive : 0 < ringChar F
  below : ringChar F < n

/-- Some number is zero exactly where the characteristic comes first. -/
theorem nonzeroBelow_iff {n : Nat} : NonzeroBelow F n ↔ ¬ CharacteristicBelow F n := by
  constructor
  · intro nonzero ⟨positive, below⟩
    apply nonzero (ringChar F) positive below
    rw [LawfulRing.ofNat_eq_cast, ringChar.spec]
  · intro large i positive below zero
    rw [LawfulRing.ofNat_eq_cast, ringChar.spec] at zero
    exact large ⟨Nat.pos_of_dvd_of_pos zero positive,
      (Nat.le_of_dvd positive zero).trans_lt below⟩

/-- For the residues modulo a prime, the characteristic is the modulus. -/
theorem Residue.characteristicBelow_iff {m : Modulus} [Fact m.toNat.Prime] {n : Nat}
    : CharacteristicBelow (Residue m) n ↔ m.toNat < n := by
  constructor
  · rintro ⟨_, below⟩
    rwa [ringChar_eq] at below
  · intro below
    exact ⟨by rw [ringChar_eq]; exact m.toNat_pos, by rwa [ringChar_eq]⟩

/-- A table that is continued past the characteristic stops there, by induction on the count of
the numbers.
-/
theorem invertFollowing_eq_error {i count : Nat} (product : F) (before : i < ringChar F)
    (reached : ringChar F ≤ i + count)
    : invertFollowing i (i : F) product count = .error (.zeroDivisor (ringChar F)) := by
  induction count generalizing i product with
  | zero => omega
  | succ count ih =>
      rcases Nat.eq_or_lt_of_le before with last | more
      · have zero : ((i + 1 : Nat) : F) = 0 := by rw [ringChar.spec, ← last]
        have isZero : CoeffRing.isZero ((i : F) + 1) = true := by
          rw [LawfulRing.isZero_iff, ← Nat.cast_succ, zero]
        simp only [invertFollowing, isZero, if_true, ← last]
      · have nonzero : ((i + 1 : Nat) : F) ≠ 0 := by
          rw [Ne, ringChar.spec]
          exact Nat.not_dvd_of_pos_of_lt (Nat.succ_pos i) more
        have isZero : CoeffRing.isZero ((i : F) + 1) = false := by
          rwa [LawfulRing.isZero_eq_false_iff, ← Nat.cast_succ]
        have rest := ih (product * ((i : F) + 1)) more (by omega)
        rw [Nat.cast_succ] at rest
        simp only [invertFollowing, isZero, Bool.false_eq_true, if_false, rest]
        rfl

/-- Where the characteristic is among the numbers, the table is refused at it. -/
theorem inverseTable_eq_error {n : Nat} (small : CharacteristicBelow F (n + 1))
    : inverseTable (F := F) n = .error (.zeroDivisor (ringChar F)) := by
  have stops : invertFollowing 0 ((0 : Nat) : F) 1 n = _ :=
    invertFollowing_eq_error 1 small.positive (by have := small.below; omega)
  rw [Nat.cast_zero] at stops
  rw [inverseTable, stops]
  rfl

-----------------------------------------------------------------------------------------
-- Entries
-----------------------------------------------------------------------------------------

theorem nonzeroBelow_succ_iff {n : Nat}
    : NonzeroBelow F (n + 1) ↔ ∀ i, 1 ≤ i → i ≤ n → (i : F) ≠ 0 := by
  refine forall_congr' fun i => forall_congr' fun positive => ?_
  rw [Nat.lt_succ_iff, LawfulRing.ofNat_eq_cast]

/-- The first number that is zero is the characteristic. -/
theorem isLeast_ringChar {n : Nat} (small : CharacteristicBelow F (n + 1))
    : IsLeast {i : Nat | 1 ≤ i ∧ i ≤ n ∧ (i : F) = 0} (ringChar F) := by
  refine ⟨⟨small.positive, Nat.le_of_lt_succ small.below, ringChar.Nat.cast_ringChar⟩, ?_⟩
  rintro i ⟨positive, -, zero⟩
  exact Nat.le_of_dvd positive ((ringChar.spec F i).mp zero)

/-- A list that starts with zero and goes on with the values of `1, …, n`. -/
theorem getElem?_cons_map_range' {α : Type} (first : α) (f : Nat → α) {i n : Nat} (positive : 1 ≤ i)
    (within : i ≤ n)
    : (first :: (List.range' 1 n).map f)[i]? = some (f i) := by
  obtain ⟨k, rfl⟩ := Nat.exists_eq_add_of_le' positive
  rw [List.getElem?_cons_succ, List.getElem?_map, List.getElem?_range' (by omega), Option.map_some,
    Nat.one_mul, Nat.add_comm]

/-- The table with a single inversion holds the inverses. -/
theorem exists_inverseTable_eq {n : Nat} (nonzero : ∀ i, 1 ≤ i → i ≤ n → (i : F) ≠ 0)
    : ∃ table : List F,
        inverseTable n = .ok table
        ∧ table.length = n + 1
        ∧ table[0]? = some 0
        ∧ ∀ i, 1 ≤ i → i ≤ n → ∃ x, table[i]? = some x ∧ (i : F) * x = 1 := by
  refine ⟨_, inverseTable_eq_ok (nonzeroBelow_succ_iff.mpr nonzero), ?_, rfl, ?_⟩
  · rw [List.length_cons, List.length_map, List.length_range']
  · intro i positive within
    exact ⟨_, getElem?_cons_map_range' 0 _ positive within,
      mul_inv_cancel₀ (nonzero i positive within)⟩

/-- Otherwise the table is refused at the first number that is zero. -/
theorem exists_inverseTable_eq_error {n : Nat} (some : ¬ ∀ i, 1 ≤ i → i ≤ n → (i : F) ≠ 0)
    : ∃ i, IsLeast {i : Nat | 1 ≤ i ∧ i ≤ n ∧ (i : F) = 0} i
        ∧ inverseTable (F := F) n = .error (.zeroDivisor i) := by
  have small : CharacteristicBelow F (n + 1) := by
    by_contra large
    exact some (nonzeroBelow_succ_iff.mp (nonzeroBelow_iff.mpr large))
  exact ⟨_, isLeast_ringChar small, inverseTable_eq_error small⟩

end FastAlgebra
