import Mathlib
import FastAlgebra.Proofs.Entries
import FastAlgebra.Proofs.InverseTable

/-! The table of inverses modulo a prime by its recurrence. With `m = q i + r` the remainder `r` is
below `i`, so the entry of `r` is there when that of `i` is computed. Below the modulus `r` is not
zero, and the entry is the inverse; at the modulus the entry of zero is used, and from there on the
factor `q` is zero. Below the modulus the table with a single inversion is the same, and from there
on it is refused.
-/

namespace FastAlgebra

namespace Residue

variable {m : Modulus}

theorem nextInverse_of_eq_some {table : Array (Residue m)} {i : Nat} {x : Residue m}
    (found : nextInverse? table i = some x)
    : nextInverse table i = x := by
  obtain ⟨inverse, present, rfl⟩ := Option.map_eq_some_iff.mp found
  rw [nextInverse, Array.getD_eq_getD_getElem?, present, Option.getD_some]

/-- Where every entry is there when it is needed, nothing is ever taken for a missing one, by
induction on the numbers.
-/
theorem foldl_of_foldlM_eq_some {table last : Array (Residue m)} {numbers : List Nat}
    (found : numbers.foldlM (fun table i => table.push <$> nextInverse? table i) table = some last)
    : numbers.foldl (fun table i => table.push (nextInverse table i)) table = last := by
  induction numbers generalizing table with
  | nil => exact Option.some.inj found
  | cons i numbers ih =>
      rw [List.foldlM_cons, Option.bind_eq_bind, Option.bind_eq_some_iff] at found
      obtain ⟨next, pushed, rest⟩ := found
      obtain ⟨x, computed, rfl⟩ := Option.map_eq_some_iff.mp pushed
      rw [List.foldl_cons, nextInverse_of_eq_some computed]
      exact ih rest

variable [prime : Fact m.toNat.Prime]

/-- What the table holds for a number: its inverse below the modulus, and zero from there on. -/
def inverseEntry (m : Modulus) [Fact m.toNat.Prime] (i : Nat) : Residue m :=
  if i < m.toNat then (ofNat i)⁻¹ else 0

theorem inverseEntry_of_lt {i : Nat} (below : i < m.toNat) : inverseEntry m i = (ofNat i)⁻¹ :=
  if_pos below

theorem inverseEntry_of_le {i : Nat} (reached : m.toNat ≤ i) : inverseEntry m i = 0 :=
  if_neg (Nat.not_lt_of_le reached)

theorem inverseEntry_zero : inverseEntry m 0 = 0 := by
  rw [inverseEntry_of_lt m.toNat_pos, ofNat_zero, inv_zero]

theorem inverseEntry_one : inverseEntry m 1 = 1 := by
  rw [inverseEntry_of_lt prime.out.one_lt, ofNat_one, inv_one]

/-- The entries for the numbers below `k`. -/
def entriesBelow (m : Modulus) [Fact m.toNat.Prime] (k : Nat) : Array (Residue m) :=
  ((List.range k).map (inverseEntry m)).toArray

theorem entriesBelow_succ (k : Nat)
    : (entriesBelow m k).push (inverseEntry m k) = entriesBelow m (k + 1) :=
  (toArray_map_range_succ (inverseEntry m) k).symm

theorem getElem?_entriesBelow {i k : Nat} (below : i < k)
    : (entriesBelow m k)[i]? = some (inverseEntry m i) :=
  getElem?_toArray_map_range (inverseEntry m) below

/-- The inverse of a number below the modulus, from that of the remainder. -/
theorem neg_mul_inv_eq {i : Nat} (large : 1 < i) (below : i < m.toNat)
    : -(ofNat (m.toNat / i) * (ofNat (m.toNat % i) : Residue m)⁻¹) = (ofNat i)⁻¹ := by
  have coprime : ¬ i ∣ m.toNat := by
    intro divides
    rcases (Nat.dvd_prime prime.out).mp divides with one | whole <;> omega
  have positive : 1 ≤ m.toNat % i := by
    rw [Nat.one_le_iff_ne_zero]
    exact fun none => coprime (Nat.dvd_of_mod_eq_zero none)
  have nonzero : (ofNat (m.toNat % i) : Residue m) ≠ 0 :=
    ofNat_ne_zero positive ((Nat.mod_lt _ (by omega)).trans below)
  have division : (ofNat i * ofNat (m.toNat / i) + ofNat (m.toNat % i) : Residue m) = 0 := by
    apply toZMod_injective
    rw [toZMod_add, toZMod_mul, toZMod_ofNat, toZMod_ofNat, toZMod_ofNat, toZMod_zero,
      ← Nat.cast_mul, ← Nat.cast_add, Nat.div_add_mod, ZMod.natCast_self]
  apply eq_inv_of_mul_eq_one_right
  calc ofNat i * -(ofNat (m.toNat / i) * (ofNat (m.toNat % i) : Residue m)⁻¹)
      = -(ofNat i * ofNat (m.toNat / i)) * (ofNat (m.toNat % i))⁻¹ := by ring
    _ = ofNat (m.toNat % i) * (ofNat (m.toNat % i))⁻¹ := by
      rw [neg_eq_of_add_eq_zero_right division]
    _ = 1 := mul_inv_cancel₀ nonzero

/-- The entry that the next one is computed from is there, and the next one is as it should be. -/
theorem nextInverse?_eq {i : Nat} (large : 1 < i)
    : nextInverse? (entriesBelow m i) i = some (inverseEntry m i) := by
  have present : m.toNat % i < i := Nat.mod_lt _ (by omega)
  rw [nextInverse?, getElem?_entriesBelow present, Option.map_some, Option.some.injEq]
  rcases Nat.lt_trichotomy i m.toNat with below | rfl | above
  · rw [inverseEntry_of_lt (present.trans below), inverseEntry_of_lt below,
      neg_mul_inv_eq large below]
  · rw [Nat.mod_self, inverseEntry_zero, inverseEntry_of_le (Nat.le_refl _), mul_zero, neg_zero]
  · rw [Nat.div_eq_of_lt above, ofNat_zero, zero_mul, neg_zero, inverseEntry_of_le above.le]

/-- The table is continued entry by entry, by induction on their count. -/
theorem foldlM_nextInverse?_eq {k count : Nat} (large : 1 < k)
    : (List.range' k count).foldlM (fun table i => table.push <$> nextInverse? table i)
        (entriesBelow m k)
      = some (entriesBelow m (k + count)) := by
  induction count generalizing k with
  | zero => rfl
  | succ count ih =>
      have last : k + (count + 1) = k + 1 + count := by omega
      rw [List.range'_succ, List.foldlM_cons, nextInverse?_eq large, Option.map_eq_map,
        Option.map_some, entriesBelow_succ, last]
      exact ih (by omega)

/-- Every entry is computed from one that is there already, and the table is as it should be. -/
theorem inversesUpTo?_eq (n : Nat)
    : inversesUpTo? n = some ((List.range (n + 1)).map (inverseEntry m)) := by
  cases n with
  | zero =>
      rw [List.range_one, List.map_singleton, inverseEntry_zero]
      rfl
  | succ n =>
      have first
          : (if n + 1 = 0 then #[0] else #[0, 1] : Array (Residue m)) = entriesBelow m 2 := by
        rw [if_neg (Nat.succ_ne_zero n), entriesBelow, List.range_succ, List.range_one]
        simp only [List.singleton_append, List.map_cons, List.map_nil, inverseEntry_zero,
          inverseEntry_one]
      rw [inversesUpTo?]
      simp only [first, foldlM_nextInverse?_eq Nat.one_lt_two]
      rw [Option.map_some, entriesBelow, Nat.add_sub_cancel, Nat.add_comm 2 n]

/-- The table holds what it should. -/
theorem inversesUpTo_eq (n : Nat) : inversesUpTo n = (List.range (n + 1)).map (inverseEntry m) := by
  obtain ⟨last, found, entries⟩ := Option.map_eq_some_iff.mp (inversesUpTo?_eq (m := m) n)
  rw [inversesUpTo, ← entries]
  exact congrArg Array.toList (foldl_of_foldlM_eq_some found)

theorem getElem?_inversesUpTo {i n : Nat} (within : i ≤ n)
    : (inversesUpTo n)[i]? = some (inverseEntry m i) := by
  rw [inversesUpTo_eq, List.getElem?_map, List.getElem?_range (Nat.lt_succ_of_le within),
    Option.map_some]

/-- Below the modulus both tables are the same. -/
theorem inverseTable_eq_inversesUpTo {n : Nat} (below : n < m.toNat)
    : inverseTable n = .ok (inversesUpTo n : List (Residue m)) := by
  have nonzero : NonzeroBelow (Residue m) (n + 1) := by
    rw [nonzeroBelow_iff, characteristicBelow_iff]
    omega
  rw [inverseTable_eq_ok nonzero, inversesUpTo_eq, List.range_eq_range', List.range'_succ,
    List.map_cons, inverseEntry_zero, Except.ok.injEq, List.cons.injEq]
  refine ⟨rfl, List.map_congr_left fun i member => ?_⟩
  have within := List.mem_range'_1.mp member
  rw [inverseEntry_of_lt (by omega), ← LawfulRing.ofNat_eq_cast]
  rfl

/-- From the modulus on the table with a single inversion is refused at the modulus. -/
theorem inverseTable_eq_error {n : Nat} (reached : m.toNat ≤ n)
    : inverseTable (F := Residue m) n = .error (.zeroDivisor m.toNat) := by
  have small : CharacteristicBelow (Residue m) (n + 1) :=
    characteristicBelow_iff.mpr (Nat.lt_succ_of_le reached)
  rw [FastAlgebra.inverseTable_eq_error small, ringChar_eq]

end Residue

-----------------------------------------------------------------------------------------
-- Both tables
-----------------------------------------------------------------------------------------

/-- In any field the table with a single inversion holds zero and the inverses of the numbers,
unless one of them is zero; then it is refused at the first of these. Modulo a prime the table by
recurrence computes each entry from one that is there already. It holds the inverses below the
modulus and zero elsewhere. So both tables are the same below the modulus, and from there on the
first one is refused.
-/
theorem inverse_tables_exact
    : (∀ (F : Type) [CoeffField F] [LawfulField F] (n : Nat),
          ((∀ i, 1 ≤ i → i ≤ n → (i : F) ≠ 0) →
              ∃ table : List F,
                inverseTable n = .ok table
                ∧ table.length = n + 1
                ∧ table[0]? = some 0
                ∧ ∀ i, 1 ≤ i → i ≤ n → ∃ x, table[i]? = some x ∧ (i : F) * x = 1)
          ∧ ((¬ ∀ i, 1 ≤ i → i ≤ n → (i : F) ≠ 0) →
              ∃ i, IsLeast {i : Nat | 1 ≤ i ∧ i ≤ n ∧ (i : F) = 0} i
                ∧ inverseTable (F := F) n = .error (.zeroDivisor i)))
      ∧ ∀ m : Modulus, m.toNat.Prime → ∀ n : Nat,
          Residue.inversesUpTo? n = some (Residue.inversesUpTo n : List (Residue m))
          ∧ (Residue.inversesUpTo n : List (Residue m)).length = n + 1
          ∧ (∀ i, 1 ≤ i → i ≤ min n (m.toNat - 1) →
              ∃ x : Residue m,
                (Residue.inversesUpTo n)[i]? = some x ∧ Residue.ofNat i * x = 1)
          ∧ (∀ i, i ≤ n → i = 0 ∨ m.toNat ≤ i →
              (Residue.inversesUpTo n)[i]? = some (0 : Residue m))
          ∧ (n < m.toNat → inverseTable n = .ok (Residue.inversesUpTo n : List (Residue m)))
          ∧ (m.toNat ≤ n → inverseTable (F := Residue m) n = .error (.zeroDivisor m.toNat)) := by
  refine ⟨fun F _ _ n => ⟨exists_inverseTable_eq, exists_inverseTable_eq_error⟩, ?_⟩
  intro m prime n
  have : Fact m.toNat.Prime := ⟨prime⟩
  refine ⟨?lookups, ?length, ?inverses, ?zeros, Residue.inverseTable_eq_inversesUpTo,
    Residue.inverseTable_eq_error⟩
  case lookups => rw [Residue.inversesUpTo?_eq, Residue.inversesUpTo_eq]
  case length => rw [Residue.inversesUpTo_eq, List.length_map, List.length_range]
  case inverses =>
    intro i positive within
    have below : i < m.toNat := by omega
    refine ⟨_, Residue.getElem?_inversesUpTo (within.trans (Nat.min_le_left _ _)), ?_⟩
    rw [Residue.inverseEntry_of_lt below, mul_inv_cancel₀ (Residue.ofNat_ne_zero positive below)]
  case zeros =>
    intro i within outside
    rw [Residue.getElem?_inversesUpTo within]
    rcases outside with rfl | reached
    · rw [Residue.inverseEntry_zero]
    · rw [Residue.inverseEntry_of_le reached]

theorem inverse_tables_exact_seventeen
    : (∃ table : List (Residue Modulus.seventeen),
          inverseTable 16 = .ok table ∧ table = Residue.inversesUpTo 16 ∧ table.length = 17)
      ∧ (Residue.inversesUpTo 18)[18]? = some (0 : Residue Modulus.seventeen)
      ∧ inverseTable (F := Residue Modulus.seventeen) 18 = .error (.zeroDivisor 17) := by
  obtain ⟨_, residues⟩ := inverse_tables_exact
  obtain ⟨_, length, _, _, same, _⟩ := residues Modulus.seventeen (by decide) 16
  obtain ⟨_, _, _, zeros, _, refused⟩ := residues Modulus.seventeen (by decide) 18
  exact ⟨⟨_, same (by decide), rfl, length⟩, zeros 18 (by decide) (.inr (by decide)),
    refused (by decide)⟩

end FastAlgebra
