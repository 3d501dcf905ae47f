import Mathlib
import FastAlgebra.Residue.Words
import FastAlgebra.Proofs.Residue.Ring

/-! The operations on words are those on residues. Each checked step meets its range because both
operands are least representatives and the modulus is below half of the word, so every operation has
a result, and this is the word of the residue.
-/

namespace FastAlgebra

-----------------------------------------------------------------------------------------
-- Checked words
-----------------------------------------------------------------------------------------

namespace CheckedWord

variable {w : Nat} {x y : BitVec w}

theorem standingFor_eq {number : Int} {word : BitVec w} (exact : (word.toNat : Int) = number)
    : standingFor number word = some word :=
  if_pos exact

theorem exists_add_eq (fits : x.toNat + y.toNat < 2 ^ w)
    : ∃ z, add x y = some z ∧ z.toNat = x.toNat + y.toNat := by
  have exact : (x + y).toNat = x.toNat + y.toNat := by
    rw [BitVec.toNat_add, Nat.mod_eq_of_lt fits]
  exact ⟨x + y, standingFor_eq (by rw [exact, Nat.cast_add]), exact⟩

theorem exists_sub_eq (reached : y.toNat ≤ x.toNat)
    : ∃ z, sub x y = some z ∧ z.toNat = x.toNat - y.toNat := by
  have exact : (x - y).toNat = x.toNat - y.toNat := BitVec.toNat_sub_of_le reached
  exact ⟨x - y, standingFor_eq (by rw [exact, Nat.cast_sub reached]), exact⟩

theorem exists_mul_eq (fits : x.toNat * y.toNat < 2 ^ w)
    : ∃ z, mul x y = some z ∧ z.toNat = x.toNat * y.toNat := by
  have exact : (x * y).toNat = x.toNat * y.toNat := by
    rw [BitVec.toNat_mul, Nat.mod_eq_of_lt fits]
  exact ⟨x * y, standingFor_eq (by rw [exact, Nat.cast_mul]), exact⟩

theorem exists_remainder_eq (nonzero : y.toNat ≠ 0)
    : ∃ z, remainder x y = some z ∧ z.toNat = x.toNat % y.toNat := by
  have divisor : y ≠ 0 := by
    rintro rfl
    exact nonzero rfl
  exact ⟨x % y, if_neg divisor, BitVec.toNat_umod⟩

theorem exists_convert_eq {v : Nat} (fits : x.toNat < 2 ^ v)
    : ∃ z, convert v x = some z ∧ z.toNat = x.toNat := by
  have exact : (x.setWidth v).toNat = x.toNat := by
    rw [BitVec.toNat_setWidth, Nat.mod_eq_of_lt fits]
  exact ⟨x.setWidth v, standingFor_eq (by rw [exact]), exact⟩

/-- A number that changes its width keeps its bits. -/
theorem eq_of_convert_eq {v : Nat} {found : BitVec v} (exact : convert v x = some found)
    : x.setWidth v = found := by
  rw [convert, standingFor] at exact
  split at exact
  · exact Option.some.inj exact
  · cases exact

/-- Every word has its number in twice the width. -/
theorem exists_widen_eq (x : BitVec 64) : ∃ z, convert 128 x = some z ∧ z.toNat = x.toNat :=
  exists_convert_eq (x.isLt.trans (by norm_num))

end CheckedWord

-----------------------------------------------------------------------------------------
-- The words of residues
-----------------------------------------------------------------------------------------

namespace Modulus

theorem toNat_bits (m : Modulus) : m.bits.toNat = m.toNat :=
  UInt64.toNat_toBitVec m.word

theorem toNat_lt_half (m : Modulus) : m.toNat < 2 ^ 63 :=
  m.lt

/-- Every word has a remainder by the modulus. -/
theorem exists_remainder_bits_eq (m : Modulus) (x : BitVec 64)
    : ∃ z, CheckedWord.remainder x m.bits = some z ∧ z.toNat = x.toNat % m.toNat := by
  rw [← m.toNat_bits]
  apply CheckedWord.exists_remainder_eq
  rw [m.toNat_bits]
  exact m.toNat_pos.ne'

end Modulus

namespace Residue

variable {m : Modulus}

theorem toNat_bits (x : Residue m) : x.bits.toNat = x.toNat :=
  UInt64.toNat_toBitVec x.word

/-- A run that ends with the number of a residue ends with its word. -/
theorem eq_some_bits {run : Option (BitVec 64)} {word : BitVec 64} {x : Residue m}
    (found : run = some word) (same : word.toNat = x.toNat)
    : run = some x.bits := by
  rw [found, Option.some.injEq]
  apply BitVec.eq_of_toNat_eq
  rw [same, toNat_bits]

theorem toNat_ofWord (value : UInt64) : (ofWord value : Residue m).toNat = value.toNat % m.toNat :=
  UInt64.toNat_mod value m.word

/-- A word is negative from its half on. The least signed word has an absolute value as well. -/
theorem toNat_magnitude (value : Int64) : (magnitude value).toNat = value.toInt.natAbs := by
  have word : value.toUInt64.toNat = value.toBitVec.toNat := rfl
  have below := value.toUInt64.toNat_lt
  have signed := BitVec.toInt_eq_toNat_cond value.toBitVec
  rw [Int64.toInt_toBitVec, ← word] at signed
  simp only [magnitude, Int64.lt_iff_toInt_lt, Int64.toInt_zero]
  split
  · rename_i negative
    rw [UInt64.toNat_sub, UInt64.toNat_zero]
    split at signed <;> omega
  · rename_i positive
    split at signed <;> omega

end Residue

namespace ResidueWord

variable {m : Modulus}

open Residue

theorem ofWord_eq (value : UInt64)
    : ofWord m value = some (Residue.ofWord value : Residue m).bits := by
  obtain ⟨word, found, number⟩ := m.exists_remainder_bits_eq value.toBitVec
  apply eq_some_bits found
  rw [number, toNat_ofWord, UInt64.toNat_toBitVec]

/-- The sum of two representatives is below the double of the modulus, hence within the word. -/
theorem add_eq (x y : Residue m) : add m x.bits y.bits = some (x + y).bits := by
  have small := m.toNat_lt_half
  have left := x.toNat_lt
  have right := y.toNat_lt
  obtain ⟨sum, found, number⟩ := CheckedWord.exists_add_eq (x := x.bits) (y := y.bits)
    (by rw [toNat_bits, toNat_bits]; omega)
  rw [toNat_bits, toNat_bits] at number
  simp only [add, found, Option.bind_eq_bind, Option.bind_some, BitVec.le_def, number, m.toNat_bits]
  split
  · rename_i reached
    obtain ⟨reduced, taken, difference⟩ := CheckedWord.exists_sub_eq (x := sum) (y := m.bits)
      (by rw [number, m.toNat_bits]; exact reached)
    apply eq_some_bits taken
    rw [difference, number, m.toNat_bits, toNat_add, Nat.mod_eq_sub_mod reached]
    exact (Nat.mod_eq_of_lt (by omega)).symm
  · rename_i within
    apply eq_some_bits rfl
    rw [number, toNat_add, Nat.mod_eq_of_lt (Nat.lt_of_not_le within)]

/-- Where the difference would be negative, the modulus is added first. The sum is below the double
of the modulus.
-/
theorem sub_eq (x y : Residue m) : sub m x.bits y.bits = some (x - y).bits := by
  have small := m.toNat_lt_half
  have left := x.toNat_lt
  have right := y.toNat_lt
  simp only [sub, BitVec.le_def, toNat_bits]
  split
  · rename_i reached
    obtain ⟨word, found, number⟩ := CheckedWord.exists_sub_eq (x := x.bits) (y := y.bits)
      (by rw [toNat_bits, toNat_bits]; exact reached)
    have wrapped : x.toNat + (m.toNat - y.toNat) = x.toNat - y.toNat + m.toNat := by omega
    apply eq_some_bits found
    rw [number, toNat_bits, toNat_bits, toNat_sub, wrapped, Nat.add_mod_right]
    exact (Nat.mod_eq_of_lt (by omega)).symm
  · rename_i within
    obtain ⟨raised, found, sum⟩ := CheckedWord.exists_add_eq (x := x.bits) (y := m.bits)
      (by rw [toNat_bits, m.toNat_bits]; omega)
    rw [toNat_bits, m.toNat_bits] at sum
    obtain ⟨word, taken, number⟩ := CheckedWord.exists_sub_eq (x := raised) (y := y.bits)
      (by rw [sum, toNat_bits]; omega)
    rw [found, Option.bind_eq_bind, Option.bind_some]
    apply eq_some_bits taken
    rw [number, toNat_bits, sum, toNat_sub, Nat.mod_eq_of_lt (by omega)]
    omega

theorem neg_eq (x : Residue m) : neg m x.bits = some (-x).bits := by
  have within := x.toNat_lt
  rw [neg]
  split
  · rename_i zero
    have none : x.toNat = 0 := by
      rw [← toNat_bits, zero]
      rfl
    apply eq_some_bits rfl
    rw [toNat_bits, toNat_neg, none, Nat.sub_zero, Nat.mod_self]
  · rename_i nonzero
    have positive : x.toNat ≠ 0 := by
      intro zero
      exact nonzero (BitVec.eq_of_toNat_eq ((toNat_bits x).trans zero))
    obtain ⟨word, found, number⟩ := CheckedWord.exists_sub_eq (x := m.bits) (y := x.bits)
      (by rw [toNat_bits, m.toNat_bits]; omega)
    apply eq_some_bits found
    rw [number, toNat_neg, toNat_bits, m.toNat_bits]
    exact (Nat.mod_eq_of_lt (by omega)).symm

/-- Below zero the word is the negated residue of the absolute value. -/
theorem ofSigned_eq (value : Int64)
    : ofSigned m value = some (Residue.ofSigned value : Residue m).bits := by
  have negated := neg_eq (Residue.ofWord (magnitude value) : Residue m)
  simp only [ofSigned, ofWord_eq, Option.bind_eq_bind, Option.bind_some, Residue.ofSigned]
  by_cases below : value < 0
  · rw [if_pos below, ← negated, neg]
    by_cases zero : (Residue.ofWord (magnitude value) : Residue m).bits = 0
    · rw [if_neg (by simp [zero]), if_pos zero, Option.pure_def]
    · rw [if_pos ⟨below, zero⟩, if_neg zero]
  · rw [if_neg (by simp [below]), if_neg below, Option.pure_def]

/-- The product of two representatives is within the double width, and its remainder within the
word.
-/
theorem mul_eq (x y : Residue m) : mul m x.bits y.bits = some (x * y).bits := by
  have small := m.toNat_lt_half
  have left := x.toNat_lt
  have right := y.toNat_lt
  obtain ⟨wideX, widenX, numberX⟩ := CheckedWord.exists_widen_eq x.bits
  obtain ⟨wideY, widenY, numberY⟩ := CheckedWord.exists_widen_eq y.bits
  obtain ⟨wide, widen, number⟩ := CheckedWord.exists_widen_eq m.bits
  rw [toNat_bits] at numberX numberY
  rw [m.toNat_bits] at number
  have fits : x.toNat * y.toNat < 2 ^ 128 :=
    calc x.toNat * y.toNat < 2 ^ 63 * 2 ^ 63 :=
          Nat.mul_lt_mul'' (left.trans small) (right.trans small)
      _ ≤ 2 ^ 128 := by norm_num
  obtain ⟨product, multiplied, numberProduct⟩ := CheckedWord.exists_mul_eq (x := wideX) (y := wideY)
    (by rw [numberX, numberY]; exact fits)
  obtain ⟨reduced, divided, remainder⟩ := CheckedWord.exists_remainder_eq (x := product) (y := wide)
    (by rw [number]; exact m.toNat_pos.ne')
  rw [numberProduct, numberX, numberY, number] at remainder
  have below := Nat.mod_lt (x.toNat * y.toNat) m.toNat_pos
  obtain ⟨word, narrowed, same⟩ := CheckedWord.exists_convert_eq (v := 64) (x := reduced)
    (by rw [remainder]; omega)
  simp only [mul, widenX, widenY, widen, multiplied, divided, Option.bind_eq_bind, Option.bind_some]
  apply eq_some_bits narrowed
  rw [same, remainder]
  exact (toNat_ofNat (x.toNat * y.toNat)).symm

theorem one_eq : one m = some (1 : Residue m).bits := by
  obtain ⟨word, found, number⟩ := m.exists_remainder_bits_eq 1
  apply eq_some_bits found
  rw [number]
  exact (toNat_ofNat 1).symm

-----------------------------------------------------------------------------------------
-- Loops
-----------------------------------------------------------------------------------------

/-- The walk along the binary digits is the one on residues, by induction on the walk. -/
theorem powFrom_eq (start base : Residue m) (exponent : Nat)
    : powFrom m start.bits base.bits exponent
      = some (combineByBits (· * ·) (fun x => x * x) start base exponent).bits := by
  induction exponent using Nat.strongRecOn generalizing start base with
  | ind exponent ih =>
      rw [powFrom, combineByBits]
      split
      · rfl
      · rename_i positive
        have next : (if exponent % 2 = 1 then mul m start.bits base.bits else some start.bits)
            = some (if exponent % 2 = 1 then start * base else start).bits := by
          split
          · exact mul_eq start base
          · rfl
        rw [next, mul_eq]
        exact ih (exponent / 2) (by omega) _ _

theorem pow_eq (x : Residue m) (exponent : UInt64)
    : pow m x.bits exponent = some (x.pow exponent.toNat).bits := by
  have reduced : CheckedWord.remainder x.bits m.bits = some x.bits := by
    obtain ⟨word, found, number⟩ := m.exists_remainder_bits_eq x.bits
    apply eq_some_bits found
    rw [number, toNat_bits, Nat.mod_eq_of_lt x.toNat_lt]
  rw [pow, one_eq, reduced, Residue.pow_eq, ← powBySquaring_eq]
  exact powFrom_eq 1 x exponent.toNat

/-- A loop along the words of residues is the loop along the residues, by induction on the list. -/
theorem foldlM_bits {step : BitVec 64 → BitVec 64 → Option (BitVec 64)}
    {combine : Residue m → Residue m → Residue m}
    (exact : ∀ x y : Residue m, step x.bits y.bits = some (combine x y).bits) (start : Residue m)
    (a : List (Residue m))
    : (a.map Residue.bits).foldlM step start.bits = some (a.foldl combine start).bits := by
  induction a generalizing start with
  | nil => rfl
  | cons x a ih =>
      rw [List.map_cons, List.foldlM_cons, exact]
      exact ih (combine start x)

theorem sum_eq (terms : List (Residue m))
    : sum m (terms.map Residue.bits) = some (Residue.sum terms).bits := by
  have zero : (0 : Residue m).bits = 0 := by
    apply BitVec.eq_of_toNat_eq
    rw [toNat_bits]
    exact (toNat_ofNat 0).trans (Nat.zero_mod _)
  rw [sum, ← zero]
  exact foldlM_bits add_eq 0 terms

theorem product_eq (factors : List (Residue m))
    : product m (factors.map Residue.bits) = some (Residue.product factors).bits := by
  rw [product, one_eq]
  exact foldlM_bits mul_eq 1 factors

end ResidueWord

end FastAlgebra
