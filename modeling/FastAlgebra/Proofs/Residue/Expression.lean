import Mathlib
import FastAlgebra.Residue.Expression
import FastAlgebra.Proofs.Residue.Words

/-! Whatever is computed with residues is the least representative of the number that the same
computation gives on the integers. Each operation is that of the integers modulo the modulus, so
this is an induction over the expression; the words follow along, and none of them leaves its width.
-/

namespace FastAlgebra

/-- A map that respects a step maps the loop of these steps to the loop along the images. -/
theorem map_foldl {α β : Type} (f : α → β) {step : α → α → α} {image : β → β → β}
    (respects : ∀ x y, f (step x y) = image (f x) (f y)) (start : α) (a : List α)
    : f (a.foldl step start) = (a.map f).foldl image (f start) := by
  rw [List.foldl_map]
  exact (List.foldl_hom f fun x y => (respects x y).symm).symm

namespace Residue

variable {m : Modulus}

@[simp]
theorem toZMod_ofWord (value : UInt64) : (ofWord value : Residue m).toZMod = value.toNat := by
  rw [toZMod, toNat_ofWord, ZMod.natCast_mod]

/-- The residue of a signed word is that of its number. -/
@[simp]
theorem toZMod_ofSigned (value : Int64) : (ofSigned value : Residue m).toZMod = value.toInt := by
  simp only [ofSigned, Int64.lt_iff_toInt_lt, Int64.toInt_zero]
  split
  · rename_i negative
    rw [toZMod_neg, toZMod_ofWord, toNat_magnitude, ← Int.cast_natCast, ← Int.cast_neg]
    congr 1
    omega
  · rename_i positive
    rw [toZMod_ofWord, toNat_magnitude, ← Int.cast_natCast]
    congr 1
    omega

theorem toZMod_sum (terms : List (Residue m))
    : (sum terms).toZMod = (terms.map toZMod).foldl (· + ·) 0 := by
  rw [sum, map_foldl toZMod toZMod_add, toZMod_zero]

theorem toZMod_product (factors : List (Residue m))
    : (product factors).toZMod = (factors.map toZMod).foldl (· * ·) 1 := by
  rw [product, map_foldl toZMod toZMod_mul, toZMod_one]

end Residue

namespace ResidueExpression

mutual

/-- The number that the expression gives on the integers. -/
def value : ResidueExpression → Int
  | .ofWord word => word.toNat
  | .ofSigned word => word.toInt
  | .add x y => x.value + y.value
  | .sub x y => x.value - y.value
  | .neg x => -x.value
  | .mul x y => x.value * y.value
  | .pow x exponent => x.value ^ exponent.toNat
  | .sum terms => (values terms).foldl (· + ·) 0
  | .product factors => (values factors).foldl (· * ·) 1

def values : List ResidueExpression → List Int
  | [] => []
  | e :: rest => e.value :: values rest

end

variable (m : Modulus)

-----------------------------------------------------------------------------------------
-- Induction over expressions
-----------------------------------------------------------------------------------------

mutual

/-- The residue is the class of the number, by induction on the expression. -/
theorem toZMod_run : (e : ResidueExpression) → (e.run m).toZMod = (e.value : ZMod m.toNat)
  | .ofWord word => by simp [run, value]
  | .ofSigned word => by simp [run, value]
  | .add x y => by simp [run, value, toZMod_run x, toZMod_run y]
  | .sub x y => by simp [run, value, toZMod_run x, toZMod_run y]
  | .neg x => by simp [run, value, toZMod_run x]
  | .mul x y => by simp [run, value, toZMod_run x, toZMod_run y]
  | .pow x exponent => by simp [run, value, toZMod_run x]
  | .sum terms => by
      rw [run, value, map_foldl Int.cast Int.cast_add, Int.cast_zero, ← map_toZMod_runAll terms]
      exact Residue.toZMod_sum (runAll m terms)
  | .product factors => by
      rw [run, value, map_foldl Int.cast Int.cast_mul, Int.cast_one, ← map_toZMod_runAll factors]
      exact Residue.toZMod_product (runAll m factors)

theorem map_toZMod_runAll
    : (es : List ResidueExpression) →
        (runAll m es).map Residue.toZMod = (values es).map (Int.cast : Int → ZMod m.toNat)
  | [] => rfl
  | e :: rest => by simp [runAll, values, toZMod_run e, map_toZMod_runAll rest]

end

mutual

/-- The word is that of the residue, by induction on the expression. -/
theorem runWords_eq : (e : ResidueExpression) → e.runWords m = some (e.run m).bits
  | .ofWord value => by rw [runWords, run, ResidueWord.ofWord_eq]
  | .ofSigned value => by rw [runWords, run, ResidueWord.ofSigned_eq]
  | .add x y => by
      rw [runWords, run, runWords_eq x, runWords_eq y]
      exact ResidueWord.add_eq _ _
  | .sub x y => by
      rw [runWords, run, runWords_eq x, runWords_eq y]
      exact ResidueWord.sub_eq _ _
  | .neg x => by
      rw [runWords, run, runWords_eq x]
      exact ResidueWord.neg_eq _
  | .mul x y => by
      rw [runWords, run, runWords_eq x, runWords_eq y]
      exact ResidueWord.mul_eq _ _
  | .pow x exponent => by
      rw [runWords, run, runWords_eq x]
      exact ResidueWord.pow_eq _ _
  | .sum terms => by
      rw [runWords, run, runAllWords_eq terms]
      exact ResidueWord.sum_eq _
  | .product factors => by
      rw [runWords, run, runAllWords_eq factors]
      exact ResidueWord.product_eq _

theorem runAllWords_eq
    : (es : List ResidueExpression) → runAllWords m es = some ((runAll m es).map Residue.bits)
  | [] => rfl
  | e :: rest => by
      rw [runAllWords, runAll, runWords_eq e, runAllWords_eq rest]
      rfl

end

-----------------------------------------------------------------------------------------
-- Residues as integers modulo the modulus
-----------------------------------------------------------------------------------------

/-- For every modulus below half of the word, and for whatever is computed in whatever order, no
word leaves its width on the way. The word at the end is the least representative of the number that
the same computation gives on the integers, and it is the one that the residue holds. So two
computations give the same residue exactly if their numbers are congruent.
-/
theorem computed_exact (m : Modulus) (e : ResidueExpression)
    : (∃ word,
          e.runWords m = some word
          ∧ word = (e.run m).bits
          ∧ word.toNat < m.toNat
          ∧ (word.toNat : Int) ≡ e.value [ZMOD m.toNat])
      ∧ ∀ other : ResidueExpression,
          e.run m = other.run m ↔ e.value ≡ other.value [ZMOD m.toNat] := by
  constructor
  · refine ⟨(e.run m).bits, runWords_eq m e, rfl, ?_, ?_⟩
    · rw [Residue.toNat_bits]
      exact (e.run m).toNat_lt
    · rw [Residue.toNat_bits, ← ZMod.intCast_eq_intCast_iff, Int.cast_natCast, ← toZMod_run]
      rfl
  · intro other
    rw [← Residue.toZMod_injective.eq_iff, toZMod_run, toZMod_run, ZMod.intCast_eq_intCast_iff]

/-- At the greatest modulus, the double of the greatest residue and a residue raised by the modulus
still fit into a word.
-/
example
    : let m : Modulus := ⟨0x7fffffffffffffff, by decide, by decide⟩
      (sub (ofWord 3) (add (ofSigned (-1)) (ofSigned (-1)))).runWords m = some 5 := by
  decide

end ResidueExpression

end FastAlgebra
