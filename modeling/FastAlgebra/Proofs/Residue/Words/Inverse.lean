import Mathlib
import FastAlgebra.Residue.Words.Inverse
import FastAlgebra.Proofs.Dyadic
import FastAlgebra.Proofs.Residue.Inverse
import FastAlgebra.Proofs.Residue.Words

/-! Euclid's algorithm on words is the one on numbers. No factor of a row is larger than the
modulus, so no word leaves its width, and the inverse that comes out is the one of the residue. An
element has one exactly where it shares no factor with the modulus.
-/

namespace FastAlgebra

-----------------------------------------------------------------------------------------
-- Checked words with a sign
-----------------------------------------------------------------------------------------

namespace CheckedSigned

variable {w : Nat} {x y : BitVec (w + 1)}

/-- Numbers below half of the width stand for themselves. -/
theorem bmod_eq_of_abs_lt {number : Int} (fits : |number| < 2 ^ w)
    : number.bmod (2 ^ (w + 1)) = number := by
  rw [abs_lt] at fits
  have double : (2 : Int) ^ (w + 1) = 2 * 2 ^ w := pow_succ' 2 w
  apply Int.bmod_eq_of_le <;> push_cast <;> omega

/-- A word that stands for the number passes the check. -/
theorem exists_standingFor_eq {number : Int} {word : BitVec w} (exact : word.toInt = number)
    : ∃ z, standingFor number word = some z ∧ z.toInt = number :=
  ⟨word, if_pos exact, exact⟩

/-- A check lets through nothing but the word itself. -/
theorem eq_of_standingFor_eq {number : Int} {word found : BitVec w}
    (exact : standingFor number word = some found)
    : word = found := by
  rw [standingFor] at exact
  split at exact
  · exact Option.some.inj exact
  · cases exact

theorem exists_add_eq (fits : |x.toInt + y.toInt| < 2 ^ w)
    : ∃ z, add x y = some z ∧ z.toInt = x.toInt + y.toInt := by
  apply exists_standingFor_eq
  rw [BitVec.toInt_add, bmod_eq_of_abs_lt fits]

theorem exists_sub_eq (fits : |x.toInt - y.toInt| < 2 ^ w)
    : ∃ z, sub x y = some z ∧ z.toInt = x.toInt - y.toInt := by
  apply exists_standingFor_eq
  rw [BitVec.toInt_sub, bmod_eq_of_abs_lt fits]

theorem exists_mul_eq (fits : |x.toInt * y.toInt| < 2 ^ w)
    : ∃ z, mul x y = some z ∧ z.toInt = x.toInt * y.toInt := by
  apply exists_standingFor_eq
  rw [BitVec.toInt_mul, bmod_eq_of_abs_lt fits]

theorem exists_shiftLeft_eq {bits : Nat} (fits : |x.toInt * 2 ^ bits| < 2 ^ w)
    : ∃ z, shiftLeft x bits = some z ∧ z.toInt = x.toInt * 2 ^ bits := by
  have power : ((powerOfTwo bits : Nat) : Int) = 2 ^ bits := by
    rw [powerOfTwo_eq, Nat.cast_pow, Nat.cast_ofNat]
  rw [shiftLeft, power]
  apply exists_standingFor_eq
  rw [BitVec.toInt_shiftLeft, Nat.shiftLeft_eq, Nat.cast_mul, ← Int.bmod_mul_bmod,
    ← BitVec.toInt_eq_toNat_bmod, Nat.cast_pow, Nat.cast_ofNat, bmod_eq_of_abs_lt fits]

/-- By a positive word there is always a quotient. -/
theorem exists_quotient_eq (positive : 0 < y.toInt)
    : ∃ z, quotient x y = some z ∧ z.toInt = x.toInt.tdiv y.toInt := by
  have nonzero : y ≠ 0 := by
    rintro rfl
    simp at positive
  have other : y ≠ -1#(w + 1) := by
    rintro rfl
    simp [BitVec.neg_one_eq_allOnes, BitVec.toInt_allOnes] at positive
  have exact := BitVec.toInt_sdiv_of_ne_or_ne x y (.inr other)
  rw [quotient, if_neg nonzero]
  exact exists_standingFor_eq exact

/-- What a division by a positive word leaves has the sign of the dividend. -/
theorem exists_remainder_eq (positive : 0 < y.toInt)
    : ∃ z, remainder x y = some z ∧ z.toInt = x.toInt.tmod y.toInt := by
  obtain ⟨z, divided, _⟩ := exists_quotient_eq (x := x) positive
  exact ⟨x.srem y, by rw [remainder, divided, Option.map_some], BitVec.toInt_srem x y⟩

theorem abs_eq_self (positive : 0 < y.toInt) : y.abs = y := by
  rw [BitVec.abs_eq, if_neg]
  rw [Bool.not_eq_true, BitVec.msb_eq_toInt]
  exact decide_eq_false (not_lt.mpr positive.le)

/-- By a positive word the least remainder is that of the integers. -/
theorem exists_leastRemainder_eq (positive : 0 < y.toInt)
    : ∃ z, leastRemainder x y = some z ∧ z.toInt = x.toInt % y.toInt := by
  obtain ⟨rest, divided, isRest⟩ := exists_remainder_eq (x := x) positive
  rw [Int.tmod_eq_emod] at isRest
  have low := Int.emod_nonneg x.toInt positive.ne'
  have high := Int.emod_lt_of_pos x.toInt positive
  have width : y.toInt < 2 ^ w := BitVec.toInt_lt
  refine ⟨_, by rw [leastRemainder, divided, Option.map_some], ?_⟩
  split
  · rename_i negative
    rw [abs_eq_self positive, BitVec.toInt_add]
    split at isRest
    · omega
    · have sum : rest.toInt + y.toInt = x.toInt % y.toInt := by omega
      rw [sum]
      exact bmod_eq_of_abs_lt (abs_lt.mpr ⟨by omega, by omega⟩)
  · rename_i nonnegative
    split at isRest <;> omega

/-- Without a sign a word below half of the width is the same number. -/
theorem toInt_eq_toNat {x : BitVec (w + 1)} (small : x.toNat < 2 ^ w) : x.toInt = x.toNat :=
  BitVec.toInt_eq_toNat_of_lt (by rw [pow_succ]; omega)

end CheckedSigned

-----------------------------------------------------------------------------------------
-- Rows of words
-----------------------------------------------------------------------------------------

namespace EuclidWords

/-- The words are those of the numbers in the rows. -/
structure StandsFor (words : EuclidWords) (rows : EuclidRows) : Prop where
  remainder : words.remainder.toInt = rows.remainder
  next : words.next.toInt = rows.next
  factor : words.factor.toInt = rows.factor
  nextFactor : words.nextFactor.toInt = rows.nextFactor

variable {words below : EuclidWords} {rows : EuclidRows} {modulus : Nat}

theorem StandsFor.next_eq_zero_iff (standsFor : words.StandsFor rows)
    : words.next = 0 ↔ rows.next = 0 := by
  rw [← BitVec.toInt_inj, standsFor.next, BitVec.toInt_ofNat]
  simp

/-- A step down from balanced rows stays within the width: the multiples that are taken away are no
larger than the modulus.
-/
theorem StandsFor.exists_step_eq (standsFor : words.StandsFor rows)
    (balanced : rows.Balanced modulus) (small : modulus < 2 ^ 63) (more : rows.next ≠ 0)
    : ∃ below, words.step = some below ∧ below.StandsFor rows.step := by
  have within := balanced.within
  have multipleBound := balanced.multiple_bounded more
  have nextFactorBound := (balanced.step more).next_bounded
  have wholeBound := Nat.div_mul_le_self rows.remainder rows.next
  have rest : (rows.remainder : Int) - (rows.remainder / rows.next : Nat) * rows.next
      = (rows.remainder % rows.next : Nat) := by
    rw [sub_eq_iff_eq_add', ← Nat.cast_mul, ← Nat.cast_add, Nat.div_add_mod']
  obtain ⟨quotient, divided, isQuotient⟩ :=
    CheckedSigned.exists_quotient_eq (x := words.remainder) (y := words.next)
      (by rw [standsFor.next]; omega)
  rw [standsFor.remainder, standsFor.next, ← Int.ofNat_tdiv] at isQuotient
  obtain ⟨multiple, multiplied, isMultiple⟩ :=
    CheckedSigned.exists_mul_eq (x := quotient) (y := words.nextFactor)
      (by rw [isQuotient, standsFor.nextFactor]; omega)
  rw [isQuotient, standsFor.nextFactor] at isMultiple
  obtain ⟨nextFactor, reduced, isNextFactor⟩ :=
    CheckedSigned.exists_sub_eq (x := words.factor) (y := multiple)
      (by rw [isMultiple, standsFor.factor]; exact nextFactorBound.trans_lt (by omega))
  rw [isMultiple, standsFor.factor] at isNextFactor
  obtain ⟨whole, multipliedBack, isWhole⟩ :=
    CheckedSigned.exists_mul_eq (x := quotient) (y := words.next)
      (by rw [isQuotient, standsFor.next, ← Nat.cast_mul, Nat.abs_cast]; omega)
  rw [isQuotient, standsFor.next] at isWhole
  obtain ⟨next, left, isNext⟩ :=
    CheckedSigned.exists_sub_eq (x := words.remainder) (y := whole)
      (by
        have := Nat.mod_le rows.remainder rows.next
        rw [isWhole, standsFor.remainder, rest, Nat.abs_cast]
        omega)
  rw [isWhole, standsFor.remainder, rest] at isNext
  refine ⟨⟨words.next, next, words.nextFactor, nextFactor⟩, ?_, ?_⟩
  · simp only [step, divided, multiplied, reduced, multipliedBack, left, Option.bind_eq_bind,
      Option.bind_some, Option.pure_def]
  · exact ⟨standsFor.next, isNext, standsFor.nextFactor, isNextFactor⟩

/-- Where a row is reached, the end is the one that is reached from there. -/
theorem finish_of_step (more : words.next ≠ 0) (reached : words.step = some below)
    : words.finish = below.finish := by
  rw [finish, dif_neg more]
  split
  · rename_i found same
    obtain rfl := Option.some.inj (reached.symm.trans same)
    rfl
  · rename_i none
    exact absurd (reached.symm.trans none) (Option.some_ne_none _)

/-- The words come to an end with the numbers, by induction on their run. -/
theorem StandsFor.exists_finish_eq (standsFor : words.StandsFor rows)
    (balanced : rows.Balanced modulus) (small : modulus < 2 ^ 63)
    : ∃ last, words.finish = some last ∧ last.StandsFor rows.finish := by
  fun_induction EuclidRows.finish rows generalizing words with
  | case1 rows done =>
      refine ⟨words, ?_, standsFor⟩
      rw [finish, dif_pos (standsFor.next_eq_zero_iff.mpr done)]
  | case2 rows more ih =>
      obtain ⟨below, reached, stands⟩ := standsFor.exists_step_eq balanced small more
      have moreWords := fun done => more (standsFor.next_eq_zero_iff.mp done)
      rw [finish_of_step moreWords reached]
      exact ih stands (balanced.step more)

variable {m : Modulus}

/-- The first words are those of the modulus and the element. -/
theorem exists_start_eq (x : Residue m)
    : ∃ first, EuclidWords.start m.bits x.bits = some first
        ∧ first.StandsFor (EuclidRows.start m.toNat x.toNat) := by
  have modulusSmall := m.toNat_lt_half
  have elementSmall := x.toNat_lt
  obtain ⟨remainder, widened, sameModulus⟩ := CheckedWord.exists_widen_eq m.bits
  obtain ⟨next, widenedElement, sameElement⟩ := CheckedWord.exists_widen_eq x.bits
  rw [m.toNat_bits] at sameModulus
  rw [x.toNat_bits] at sameElement
  have isModulus : remainder.toInt = m.toNat := by
    rw [CheckedSigned.toInt_eq_toNat (by omega), sameModulus]
  have isElement : next.toInt = x.toNat := by
    rw [CheckedSigned.toInt_eq_toNat (by omega), sameElement]
  have one : (1 : BitVec 128).toInt = 1 := by decide
  refine ⟨⟨remainder, next, 0, 1⟩, by rw [start, widened, widenedElement]; rfl, ?_⟩
  exact ⟨isModulus, isElement, BitVec.toInt_zero, one⟩

/-- Whatever rows the words come to, they stand for balanced ones, by induction on the way there. -/
theorem Reached.exists_balanced {x : Residue m} (reached : Reached m.bits x.bits words)
    : ∃ rows, words.StandsFor rows ∧ rows.Balanced m.toNat := by
  induction reached with
  | start first =>
      obtain ⟨same, begins, stands⟩ := exists_start_eq x
      obtain rfl := Option.some.inj (first.symm.trans begins)
      exact ⟨_, stands, .start x.toNat_lt⟩
  | step _ more next ih =>
      obtain ⟨rows, stands, balanced⟩ := ih
      have more := fun done => more (stands.next_eq_zero_iff.mpr done)
      obtain ⟨same, reaches, below⟩ := stands.exists_step_eq balanced m.toNat_lt_half more
      obtain rfl := Option.some.inj (next.symm.trans reaches)
      exact ⟨_, below, balanced.step more⟩

/-- No factor that is computed is larger than the modulus. -/
theorem Reached.bounded {x : Residue m} (reached : Reached m.bits x.bits words)
    : |words.factor.toInt| ≤ m.toNat ∧ |words.nextFactor.toInt| ≤ m.toNat := by
  obtain ⟨rows, stands, balanced⟩ := reached.exists_balanced
  rw [stands.factor, stands.nextFactor]
  exact ⟨balanced.bounded, balanced.next_bounded⟩

end EuclidWords

-----------------------------------------------------------------------------------------
-- Inverses
-----------------------------------------------------------------------------------------

namespace ResidueWord

variable {m : Modulus}

open Residue

/-- The least remainder of a factor is the word of a residue. -/
theorem exists_narrowed_eq (factor : BitVec 128)
    : ∃ modulus least,
        CheckedWord.convert 128 m.bits = some modulus
        ∧ CheckedSigned.leastRemainder factor modulus = some least
        ∧ CheckedWord.convert 64 least
          = some (ofNat (factor.toInt % (m.toNat : Int)).toNat : Residue m).bits := by
  have small := m.toNat_lt_half
  have positive := m.toNat_pos
  obtain ⟨modulus, widened, same⟩ := CheckedWord.exists_widen_eq m.bits
  rw [m.toNat_bits] at same
  have isModulus : modulus.toInt = m.toNat := by
    rw [CheckedSigned.toInt_eq_toNat (by omega), same]
  obtain ⟨least, divided, isLeast⟩ :=
    CheckedSigned.exists_leastRemainder_eq (x := factor) (y := modulus) (by omega)
  rw [isModulus] at isLeast
  have low := Int.emod_nonneg factor.toInt (b := m.toNat) (by omega)
  have high := Int.emod_lt_of_pos factor.toInt (b := m.toNat) (by omega)
  have number : least.toNat = (factor.toInt % (m.toNat : Int)).toNat := by
    have signed := BitVec.toInt_eq_toNat_cond least
    have width := least.isLt
    split at signed <;> omega
  obtain ⟨word, narrowed, isWord⟩ := CheckedWord.exists_convert_eq (v := 64) (x := least)
    (by omega)
  refine ⟨modulus, least, widened, divided, eq_some_bits narrowed ?_⟩
  rw [isWord, number, toNat_ofNat, Nat.mod_eq_of_lt (by omega)]

/-- The inverse of the word is the word of the inverse. -/
theorem inverse?_eq (x : Residue m)
    : inverse? m x.bits = some (x.inv?.map Residue.bits) := by
  have zero : x.bits = 0 ↔ x.word = 0 := by
    rw [Residue.bits, ← UInt64.toBitVec_inj]
    rfl
  rw [inverse?, inv?]
  split
  · rename_i none
    rw [if_pos (zero.mp none)]
    rfl
  · rename_i nonzero
    obtain ⟨first, begins, stands⟩ := EuclidWords.exists_start_eq x
    obtain ⟨last, ends, lastStands⟩ :=
      stands.exists_finish_eq (.start x.toNat_lt) m.toNat_lt_half
    obtain ⟨modulus, least, widened, divided, narrowed⟩ := exists_narrowed_eq (m := m) last.factor
    have one : last.remainder = 1
        ↔ (EuclidRows.start m.toNat x.toNat).finish.remainder = 1 := by
      have unit : (1 : BitVec 128).toInt = 1 := by decide
      rw [← BitVec.toInt_inj, lastStands.remainder, unit, Nat.cast_eq_one]
    rw [lastStands.factor] at narrowed
    rw [if_neg (fun none => nonzero (zero.mpr none))]
    simp only [begins, ends, one, widened, divided, narrowed, Option.bind_eq_bind,
      Option.bind_some, Option.pure_def]
    split <;> rfl

end ResidueWord

namespace Residue

/-- For every modulus between one and half of the word, an element has an inverse exactly where it
shares no factor with the modulus. The run on words finds what is to be found and never leaves the
width, since none of its factors is larger than the modulus. Modulo a prime the residues are a
field, whose inverses are powers.
-/
theorem inverse_exact (m : Modulus) (large : 1 < m.toNat)
    : (∀ x : Residue m,
          (Nat.gcd x.toNat m.toNat = 1
            → ∃ y, x.inv? = some y ∧ y.toNat < m.toNat ∧ x.toNat * y.toNat ≡ 1 [MOD m.toNat])
          ∧ (x.inv? = none ↔ 1 < Nat.gcd x.toNat m.toNat)
          ∧ ResidueWord.inverse? m x.bits = some (x.inv?.map bits)
          ∧ ∀ rows, EuclidWords.Reached m.bits x.bits rows
              → |rows.factor.toInt| ≤ m.toNat ∧ |rows.nextFactor.toInt| ≤ m.toNat)
      ∧ (m.toNat.Prime
          → LawfulField (Residue m)
            ∧ ∀ x : Residue m, x ≠ 0 → x.inv? = some (x.pow (m.toNat - 2))) := by
  constructor
  · intro x
    refine ⟨?_, inv?_eq_none_iff large x, ResidueWord.inverse?_eq x, ?_⟩
    · intro coprime
      cases found : x.inv? with
      | none =>
          have shared := (inv?_eq_none_iff large x).mp found
          omega
      | some y => exact ⟨y, rfl, y.toNat_lt, modEq_of_mul_eq_one (mul_of_inv?_eq_some found)⟩
    · exact fun rows reached => reached.bounded
  · intro prime
    have : Fact m.toNat.Prime := ⟨prime⟩
    exact ⟨inferInstance, fun x nonzero => inv?_eq_pow nonzero⟩

theorem inverse_exact_fifteen
    : (∃ y : Residue Modulus.fifteen,
          (ofNat 7).inv? = some y ∧ y.toNat < 15 ∧ 7 * y.toNat ≡ 1 [MOD 15])
      ∧ (ofNat 6 : Residue Modulus.fifteen).inv? = none
      ∧ ResidueWord.inverse? Modulus.fifteen 6 = some none
      ∧ (∀ rows, EuclidWords.Reached 15 7 rows
          → |rows.factor.toInt| ≤ 15 ∧ |rows.nextFactor.toInt| ≤ 15)
      ∧ (ofNat 3 : Residue Modulus.seventeen).inv? = some ((ofNat 3).pow 15) := by
  obtain ⟨each, _⟩ := inverse_exact Modulus.fifteen (by decide)
  obtain ⟨_, field⟩ := inverse_exact Modulus.seventeen (by decide)
  obtain ⟨found, _, _, bounded⟩ := each (ofNat 7)
  obtain ⟨_, missing, words, _⟩ := each (ofNat 6)
  have none := missing.mpr (by decide)
  rw [none] at words
  obtain ⟨_, powers⟩ := field (by decide)
  exact ⟨found (by decide), none, words, bounded, powers (ofNat 3) (by decide)⟩

end Residue

end FastAlgebra
