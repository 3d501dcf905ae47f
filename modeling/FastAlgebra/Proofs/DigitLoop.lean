import Mathlib
import FastAlgebra.DigitLoop
import FastAlgebra.Proofs.Nimber.Words
import FastAlgebra.Proofs.Residue.Words.RootOfUnity

/-! All loops along the binary digits of a word agree. A loop on images of other elements is the
image of the loop on these, so that every loop on words is the one on the ring, and in a commutative
ring this is the power or the multiple.
-/

namespace FastAlgebra

-----------------------------------------------------------------------------------------
-- The loop
-----------------------------------------------------------------------------------------

/-- Where the steps on images are the images of steps, so is the loop, by induction on the word. -/
theorem alongDigits_eq {M : Type → Type} [Monad M] [LawfulMonad M] {S R : Type} (image : S → R)
    (join : S → S → S) (twice : S → S) {combine : R → R → M R} {double : R → M R}
    (combines : ∀ x y, combine (image x) (image y) = pure (image (join x y)))
    (doubles : ∀ x, double (image x) = pure (image (twice x))) (result base : S) (count : UInt64)
    : alongDigits combine double (image result) (image base) count
      = pure (image (combineByBits join twice result base count.toNat)) := by
  induction number : count.toNat using Nat.strongRecOn generalizing result base count with
  | ind n ih =>
      subst number
      have digit : count &&& 1 = 1 ↔ count.toNat % 2 = 1 := by
        rw [← UInt64.toNat_inj, UInt64.toNat_and, UInt64.toNat_one, Nat.and_one_is_mod]
      have shifted : (count >>> 1).toNat = count.toNat / 2 := by
        rw [UInt64.toNat_shiftRight, Nat.shiftRight_eq_div_pow]
        rfl
      rw [alongDigits, combineByBits]
      by_cases zero : count = 0
      · rw [dif_pos zero, if_pos (zero ▸ UInt64.toNat_zero)]
      · have positive : count.toNat ≠ 0 := fun none => zero (UInt64.toNat_inj.mp none)
        have next : (if count &&& 1 = 1 then combine (image result) (image base)
              else pure (image result))
            = pure (image (if count.toNat % 2 = 1 then join result base else result)) := by
          rw [combines, ← apply_ite pure, ← apply_ite image]
          simp only [digit]
        rw [dif_neg zero, if_neg positive, next, doubles, pure_bind, pure_bind]
        exact ih (count.toNat / 2) (by omega) _ _ _ shifted

theorem defaultPow_eq {R : Type} [One R] [Mul R] (x : R) (exponent : UInt64)
    : defaultPow x exponent = powBySquaring x exponent.toNat :=
  alongDigits_eq (M := Id) id (· * ·) (fun y => y * y) (fun _ _ => rfl) (fun _ => rfl) 1 x exponent

theorem defaultOfWord_eq {R : Type} [Zero R] [One R] [Add R] (n : UInt64)
    : (defaultOfWord n : R) = sumOfOnes n.toNat :=
  alongDigits_eq (M := Id) id (· + ·) (fun y => y + y) (fun _ _ => rfl) (fun _ => rfl) 0 1 n

namespace LawfulRing

variable {R : Type} [CoeffRing R] [LawfulRing R]

/-- Whatever loop a ring has of its own, its powers are those of the loop on its operations. -/
theorem pow_eq_defaultPow (x : R) (exponent : UInt64)
    : CoeffRing.pow x exponent.toNat = defaultPow x exponent := by
  rw [pow_eq, defaultPow_eq]
  exact (powBySquaring_eq x exponent.toNat).symm

theorem ofNat_eq_defaultOfWord (n : UInt64) : (CoeffRing.ofNat n.toNat : R) = defaultOfWord n := by
  rw [ofNat_eq_cast, defaultOfWord_eq]
  exact (sumOfOnes_eq n.toNat).symm

end LawfulRing

-----------------------------------------------------------------------------------------
-- Words of residues
-----------------------------------------------------------------------------------------

namespace ResidueWord

variable {m : Modulus}

open Residue

theorem remainder_bits_eq (x : UInt64)
    : CheckedWord.remainder x.toBitVec m.bits = some (Residue.ofWord x : Residue m).bits :=
  ofWord_eq x

/-- Any word is reduced first, and the loop runs on the words of residues from then on. -/
theorem powAlong_eq (x exponent : UInt64)
    : powAlong m x.toBitVec exponent
      = some (defaultPow (Residue.ofWord x : Residue m) exponent).bits := by
  rw [powAlong, one_eq, remainder_bits_eq, defaultPow_eq]
  exact alongDigits_eq Residue.bits (· * ·) (fun y => y * y) mul_eq (fun y => mul_eq y y) 1
    (Residue.ofWord x) exponent

/-- It does not matter whether the exponent is walked along as a word or as a number. -/
theorem pow_eq_powAlong (x exponent : UInt64)
    : pow m x.toBitVec exponent = powAlong m x.toBitVec exponent := by
  rw [powAlong_eq, pow, one_eq, remainder_bits_eq, defaultPow_eq]
  exact powFrom_eq 1 (Residue.ofWord x) exponent.toNat

end ResidueWord

/-- A representative is its own remainder. -/
theorem Residue.ofWord_word {m : Modulus} (x : Residue m) : ofWord x.word = x := by
  apply ext_toNat
  rw [toNat_ofWord, toNat_word, Nat.mod_eq_of_lt x.toNat_lt]

theorem Residue.ofWord_eq_defaultOfWord {m : Modulus} (n : UInt64)
    : (ofWord n : Residue m) = defaultOfWord n := by
  rw [← LawfulRing.ofNat_eq_defaultOfWord]
  apply ext_toNat
  rw [toNat_ofWord]
  exact (toNat_ofNat n.toNat).symm

-----------------------------------------------------------------------------------------
-- Words of nimbers
-----------------------------------------------------------------------------------------

namespace NimWord

theorem pow_eq (x : Nimber) (exponent : UInt64)
    : pow x.word exponent = some (x.pow exponent.toNat).word :=
  alongDigits_eq Nimber.word (· * ·) Nimber.square mul_eq square_eq 1 x exponent

end NimWord

-----------------------------------------------------------------------------------------
-- All loops
-----------------------------------------------------------------------------------------

/-- All loops along the binary digits agree. The loops on the operations of a commutative ring are
its powers and its multiples of one. The other loops of residues, for any modulus and any word, and
of nimbers coincide with them, on words and on elements. That of nimbers may square by the diagonal
of the table, as this is the product of a nimber with itself.
-/
theorem loops_agree
    : (∀ (R : Type) [CommRing R] (x : R) (n : UInt64),
        defaultPow x n = x ^ n.toNat
        ∧ (defaultOfWord n : R) = n.toNat • 1
        ∧ powBySquaring x n.toNat = defaultPow x n
        ∧ (sumOfOnes n.toNat : R) = defaultOfWord n)
      ∧ (∀ (m : Modulus) (x : Residue m) (n : UInt64),
        CoeffRing.pow x n.toNat = defaultPow x n
        ∧ ResidueWord.powAlong m x.bits n = some (defaultPow x n).bits)
      ∧ (∀ (m : Modulus) (word n : UInt64),
        (CoeffRing.ofNat n.toNat : Residue m) = defaultOfWord n
        ∧ (Residue.ofWord n : Residue m) = defaultOfWord n
        ∧ ResidueWord.ofWord m n = some (defaultOfWord n : Residue m).bits
        ∧ ResidueWord.powAlong m word.toBitVec n
          = some (defaultPow (defaultOfWord word : Residue m) n).bits
        ∧ ResidueWord.pow m word.toBitVec n = ResidueWord.powAlong m word.toBitVec n)
      ∧ (∀ (x y : Nimber) (n : UInt64),
        x.square = x * x
        ∧ CoeffRing.pow x n.toNat = defaultPow x n
        ∧ (CoeffRing.ofNat n.toNat : Nimber) = defaultOfWord n
        ∧ NimWord.mul x.word y.word = some (x * y).word
        ∧ NimWord.square x.word = some (x * x).word
        ∧ NimWord.pow x.word n = some (defaultPow x n).word
        ∧ NimWord.ofWord n = (defaultOfWord n : Nimber).word) := by
  refine ⟨?_, ?_, ?_, ?_⟩
  · intro R _ x n
    rw [defaultPow_eq, defaultOfWord_eq, powBySquaring_eq, sumOfOnes_eq, nsmul_one]
    exact ⟨rfl, rfl, rfl, rfl⟩
  · intro m x n
    have along := ResidueWord.powAlong_eq (m := m) x.word n
    rw [Residue.ofWord_word] at along
    exact ⟨LawfulRing.pow_eq_defaultPow x n, along⟩
  · intro m word n
    rw [← Residue.ofWord_eq_defaultOfWord, ← Residue.ofWord_eq_defaultOfWord]
    refine ⟨?_, rfl, ResidueWord.ofWord_eq n, ResidueWord.powAlong_eq word n,
      ResidueWord.pow_eq_powAlong word n⟩
    rw [LawfulRing.ofNat_eq_defaultOfWord, Residue.ofWord_eq_defaultOfWord]
  · intro x y n
    rw [← LawfulRing.ofNat_eq_defaultOfWord, ← LawfulRing.pow_eq_defaultPow,
      ← x.square_eq_mul_self]
    exact ⟨rfl, rfl, rfl, NimWord.mul_eq x y, NimWord.square_eq x, NimWord.pow_eq x n,
      congrArg Nimber.word (NimWord.ofWord_eq n)⟩

end FastAlgebra
