import Mathlib
import FastAlgebra.Proofs.Product.Modular.InPlace
import FastAlgebra.Proofs.Transform.Complex

/-! Products modulo any number are exact over exact complex numbers. The polynomials of the halves
have real coefficients, so their values at conjugate points are conjugate, and the transform that
carries both halves comes apart. Four transforms then bring back four sums of products of halves,
which are whole numbers.
-/

namespace FastAlgebra

open CoeffList Polynomial

-----------------------------------------------------------------------------------------
-- Numbers in halves
-----------------------------------------------------------------------------------------

def lowHalves (a : List UInt32) : List Nat :=
  a.map fun v => v.toNat % 2 ^ splitBits

def highHalves (a : List UInt32) : List Nat :=
  a.map fun v => v.toNat / 2 ^ splitBits

/-- The sum of the products of entries whose places add up to `k`. -/
def cauchySum (a b : List Nat) (k : Nat) : Nat :=
  ∑ i ∈ Finset.range (k + 1), coeff a i * coeff b (k - i)

theorem coeff_map_of_zero {R S : Type} [Zero R] [Zero S] {f : R → S} (zero : f 0 = 0) (a : List R)
    (i : Nat)
    : coeff (a.map f) i = f (coeff a i) := by
  rw [CoeffList.coeff, CoeffList.coeff, List.getD_eq_getElem?_getD, List.getD_eq_getElem?_getD,
    List.getElem?_map]
  cases a[i]? with
  | none => exact zero.symm
  | some c => rfl

/-- A number is made up of its halves. -/
theorem coeff_map_toNat (a : List UInt32) (i : Nat)
    : coeff (a.map UInt32.toNat) i
      = coeff (lowHalves a) i + coeff (highHalves a) i * 2 ^ splitBits := by
  rw [lowHalves, highHalves, coeff_map_of_zero rfl, coeff_map_of_zero rfl, coeff_map_of_zero rfl,
    Nat.mod_add_div']

/-- The sum over whole numbers is made up of the four sums over halves. -/
theorem cauchySum_map_toNat (a b : List UInt32) (k : Nat)
    : (cauchySum (a.map UInt32.toNat) (b.map UInt32.toNat) k : Int)
      = joinedNumber (cauchySum (lowHalves a) (lowHalves b) k)
          (cauchySum (highHalves a) (lowHalves b) k) (cauchySum (lowHalves a) (highHalves b) k)
          (cauchySum (highHalves a) (highHalves b) k) := by
  simp only [cauchySum, joinedNumber, coeff_map_toNat]
  push_cast
  simp only [Finset.sum_mul, add_mul, ← Finset.sum_add_distrib]
  apply Finset.sum_congr rfl
  intro i _
  ring

/-- The sums over halves are signed words. -/
structure HalfProductsFit (a b : List UInt32) : Prop where
  lowLow : ∀ k, cauchySum (lowHalves a) (lowHalves b) k < 2 ^ 63
  highLow : ∀ k, cauchySum (highHalves a) (lowHalves b) k < 2 ^ 63
  lowHigh : ∀ k, cauchySum (lowHalves a) (highHalves b) k < 2 ^ 63
  highHigh : ∀ k, cauchySum (highHalves a) (highHalves b) k < 2 ^ 63

/-- There are no more terms than entries of the first list. -/
theorem cauchySum_le {a b : List Nat} {bound : Nat} (left : ∀ i, coeff a i ≤ bound)
    (right : ∀ i, coeff b i ≤ bound) (k : Nat)
    : cauchySum a b k ≤ a.length * (bound * bound) := by
  have terms : ∀ i ∈ Finset.range (k + 1), coeff a i * coeff b (k - i) ≠ 0 → i < a.length := by
    intro i _ nonzero
    by_contra past
    rw [CoeffList.coeff, List.getD_eq_default _ _ (Nat.le_of_not_lt past), zero_mul] at nonzero
    exact nonzero rfl
  have fewer : (Finset.range (k + 1)).filter (· < a.length) ⊆ Finset.range a.length := by
    intro i member
    exact Finset.mem_range.mpr (Finset.mem_filter.mp member).2
  calc
    cauchySum a b k
        = ∑ i ∈ (Finset.range (k + 1)).filter (· < a.length), coeff a i * coeff b (k - i) :=
      (Finset.sum_filter_of_ne terms).symm
    _ ≤ ((Finset.range (k + 1)).filter (· < a.length)).card • (bound * bound) :=
      Finset.sum_le_card_nsmul _ _ _ fun i _ => Nat.mul_le_mul (left i) (right (k - i))
    _ ≤ a.length * (bound * bound) := by
      rw [smul_eq_mul]
      exact Nat.mul_le_mul_right _ (by simpa using Finset.card_le_card fewer)

theorem coeff_lowHalves_le (a : List UInt32) (i : Nat)
    : coeff (lowHalves a) i ≤ 2 ^ 17 - 1 := by
  rw [lowHalves, coeff_map_of_zero rfl, splitBits]
  omega

theorem coeff_highHalves_le (a : List UInt32) (i : Nat)
    : coeff (highHalves a) i ≤ 2 ^ 17 - 1 := by
  have word := (CoeffList.coeff a i).toNat_lt
  rw [highHalves, coeff_map_of_zero rfl, splitBits]
  omega

/-- Up to half a billion of entries they always are. -/
theorem halfProductsFit_of_length_le {a : List UInt32} (short : a.length ≤ 2 ^ 29)
    (b : List UInt32)
    : HalfProductsFit a b := by
  have fits {x y : List Nat} (length : x.length = a.length) (left : ∀ i, coeff x i ≤ 2 ^ 17 - 1)
      (right : ∀ i, coeff y i ≤ 2 ^ 17 - 1) (k : Nat)
      : cauchySum x y k < 2 ^ 63 := by
    have bound := cauchySum_le left right k
    rw [length] at bound
    omega
  exact ⟨fits (List.length_map _) (coeff_lowHalves_le a) (coeff_lowHalves_le b),
    fits (List.length_map _) (coeff_highHalves_le a) (coeff_lowHalves_le b),
    fits (List.length_map _) (coeff_lowHalves_le a) (coeff_highHalves_le b),
    fits (List.length_map _) (coeff_highHalves_le a) (coeff_highHalves_le b)⟩

-----------------------------------------------------------------------------------------
-- Polynomials with real coefficients
-----------------------------------------------------------------------------------------

namespace Complex

/-- The polynomial over the complex numbers with whole coefficients. -/
noncomputable def numberPolynomial (a : List Nat) : (Complex ℝ)[X] :=
  toPolynomial (a.map Nat.cast)

theorem coeff_numberPolynomial (a : List Nat) (i : Nat)
    : (numberPolynomial a).coeff i = (coeff a i : Nat) := by
  rw [numberPolynomial, coeff_toPolynomial, coeff_map_of_zero Nat.cast_zero]

/-- The coefficients of a product are whole numbers. -/
theorem coeff_numberPolynomial_mul (a b : List Nat) (k : Nat)
    : (numberPolynomial a * numberPolynomial b).coeff k = (cauchySum a b k : Nat) := by
  rw [coeff_mul, Finset.Nat.sum_antidiagonal_eq_sum_range_succ_mk, cauchySum, Nat.cast_sum]
  simp only [coeff_numberPolynomial, Nat.cast_mul]

/-- At conjugate points the values are conjugate. -/
theorem conj_eval_numberPolynomial (a : List Nat) (z : Complex ℝ)
    : ((numberPolynomial a).eval z).conj = (numberPolynomial a).eval z.conj := by
  have real : (numberPolynomial a).map conjHom = numberPolynomial a := by
    ext1 i
    rw [Polynomial.coeff_map, coeff_numberPolynomial, map_natCast]
  exact conj_eval real z

theorem splitCoeff_eq (v : UInt32)
    : splitCoeff v
      = ((v.toNat % 2 ^ splitBits : Nat) : Complex ℝ)
        + imaginaryUnit * ((v.toNat / 2 ^ splitBits : Nat) : Complex ℝ) := by
  ext <;> simp [splitCoeff, imaginaryUnit, powerOfTwo_eq, RealScalar.ofNat]

theorem toPolynomial_map_splitCoeff (a : List UInt32)
    : toPolynomial (a.map splitCoeff)
      = numberPolynomial (lowHalves a) + C imaginaryUnit * numberPolynomial (highHalves a) := by
  have zero : splitCoeff (0 : UInt32) = (0 : Complex ℝ) := by
    simp [splitCoeff_eq]
  ext1 i
  rw [coeff_add, coeff_C_mul, coeff_numberPolynomial, coeff_numberPolynomial, lowHalves, highHalves,
    coeff_toPolynomial, coeff_map_of_zero zero, coeff_map_of_zero rfl, coeff_map_of_zero rfl,
    splitCoeff_eq]

-----------------------------------------------------------------------------------------
-- Separating the halves
-----------------------------------------------------------------------------------------

/-- The halves of real parts come apart. -/
theorem halvesOf_eq (n : Nat) (x y : Complex ℝ)
    : halvesOf n (x + imaginaryUnit * y) (x - imaginaryUnit * y).conj
      = (x * TransformScalar.inverseLength n, y * TransformScalar.inverseLength n) := by
  have scaled : (RealScalar.ofNat 1 / RealScalar.ofNat 2 / RealScalar.ofNat n : ℝ) = 1 / 2 / n := by
    simp [RealScalar.ofNat]
  simp only [halvesOf, conj_conj, scaled, inverseLength_eq]
  apply Prod.ext <;> ext <;> simp [scale, imaginaryUnit, ofReal] <;> ring

/-- The transforms of both operands hold the values of their polynomials at the powers of the root.
-/
structure Transformed (s : Nat) (a b : List UInt32) (images : ImagePair ℝ) : Prop where
  sizeA : images.a.size = 2 ^ s
  sizeB : images.b.size = 2 ^ s
  valueA : ∀ i < 2 ^ s, images.a.getD i 0 = (toPolynomial (a.map splitCoeff)).eval (root s ^ i)
  valueB : ∀ i < 2 ^ s, images.b.getD i 0 = (toPolynomial (b.map splitCoeff)).eval (root s ^ i)

namespace Transformed

variable {s : Nat} {a b : List UInt32} {images : ImagePair ℝ}

/-- The values of the halves, over the length. -/
theorem halvesAt_eq (transformed : Transformed s a b images) {i : Nat} (h : i < 2 ^ s)
    : halvesAt images.b i
      = ((numberPolynomial (lowHalves b)).eval (root s ^ i)
            * TransformScalar.inverseLength (2 ^ s),
          (numberPolynomial (highHalves b)).eval (root s ^ i)
            * TransformScalar.inverseLength (2 ^ s)) := by
  have there := (pairing_mirror (2 ^ s)).within i h
  have back := (pairing_mirror (2 ^ s)).involutive i h
  have mirrored : images.b.getD (mirror (2 ^ s) i) 0
      = ((numberPolynomial (lowHalves b)).eval (root s ^ i)
          - imaginaryUnit * (numberPolynomial (highHalves b)).eval (root s ^ i)).conj := by
    rw [transformed.valueB _ there, toPolynomial_map_splitCoeff, ← conj_root_pow h, eval_add,
      eval_mul, eval_C, ← conj_eval_numberPolynomial, ← conj_eval_numberPolynomial]
    ext <;> simp [imaginaryUnit, neg_add_eq_sub]
  rw [FastAlgebra.halvesAt_eq, transformed.sizeB, mirrored, transformed.valueB i h,
    toPolynomial_map_splitCoeff, eval_add, eval_mul, eval_C, halvesOf_eq]

/-- The products of the values, mirrored. -/
theorem halfProductsAt_eq (transformed : Transformed s a b images) {i : Nat} (h : i < 2 ^ s)
    : halfProductsAt images.a images.b i
      = ((toPolynomial (a.map splitCoeff) * numberPolynomial (lowHalves b)
            * C (TransformScalar.inverseLength (2 ^ s))).eval (root s ^ mirror (2 ^ s) i),
          (toPolynomial (a.map splitCoeff) * numberPolynomial (highHalves b)
            * C (TransformScalar.inverseLength (2 ^ s))).eval (root s ^ mirror (2 ^ s) i)) := by
  have sizeA := transformed.sizeA
  have there := (pairing_mirror (2 ^ s)).within i h
  have back := (pairing_mirror (2 ^ s)).involutive i h
  simp only [eval_mul, eval_C]
  rcases le_or_gt i (images.a.size / 2) with first | second
  · have turned (p : List Nat)
        : ((numberPolynomial p).eval (root s ^ i) * TransformScalar.inverseLength (2 ^ s)).conj
          = (numberPolynomial p).eval (root s ^ mirror (2 ^ s) i)
              * TransformScalar.inverseLength (2 ^ s) := by
      rw [← conjHom_apply, map_mul, conjHom_apply, conjHom_apply, conj_eval_numberPolynomial,
        conj_root_pow h, inverseLength_eq, conj_ofReal]
    rw [halfProductsAt_of_le first, sizeA, transformed.valueA _ there, transformed.halvesAt_eq h,
      turned, turned, mul_assoc, mul_assoc]
  · have opposite : mirror (2 ^ s) i = 2 ^ s - i := Nat.mod_eq_of_lt (by omega)
    have within : mirror (2 ^ s) i ≤ images.a.size / 2 := by omega
    have products := halfProductsAt_mirror (b := images.b) within (by rw [sizeA, back]; omega)
    rw [sizeA, back, transformed.valueA _ there, transformed.halvesAt_eq there] at products
    rw [products, mul_assoc, mul_assoc]

/-- The products with the low and with the high halves, of all indices. -/
theorem map_halfProductsAt (transformed : Transformed s a b images)
    : (List.range (2 ^ s)).map (fun i => (halfProductsAt images.a images.b i).1)
        = mirroredValues s (toPolynomial (a.map splitCoeff) * numberPolynomial (lowHalves b))
      ∧ (List.range (2 ^ s)).map (fun i => (halfProductsAt images.a images.b i).2)
        = mirroredValues s (toPolynomial (a.map splitCoeff) * numberPolynomial (highHalves b)) := by
  constructor <;>
    · apply List.map_congr_left
      intro i member
      rw [transformed.halfProductsAt_eq (List.mem_range.mp member)]

end Transformed

end Complex

-----------------------------------------------------------------------------------------
-- The product
-----------------------------------------------------------------------------------------

/-- The lists are those of the products of `a` with the low and with the high halves of `b`, and may
go on with zeros.
-/
structure HalfProducts (a b : List UInt32) (first second : List (Complex ℝ)) : Prop where
  lengthFirst : a.length + b.length - 1 ≤ first.length
  lengthSecond : a.length + b.length - 1 ≤ second.length
  first : toPolynomial first
    = toPolynomial (a.map splitCoeff) * Complex.numberPolynomial (lowHalves b)
  second : toPolynomial second
    = toPolynomial (a.map splitCoeff) * Complex.numberPolynomial (highHalves b)

/-- The remainder of a coefficient of the product. -/
def remainderAt (a b : List UInt32) (m : UInt32) (k : Nat) : UInt32 :=
  .ofNat (cauchySum (a.map UInt32.toNat) (b.map UInt32.toNat) k % m.toNat)

variable {a b : List UInt32} {m : UInt32}

theorem toNat_remainderAt (positive : 0 < m.toNat) (a b : List UInt32) (k : Nat)
    : (remainderAt a b m k).toNat
      = cauchySum (a.map UInt32.toNat) (b.map UInt32.toNat) k % m.toNat :=
  UInt32.toNat_ofNat_of_lt' ((Nat.mod_lt _ positive).trans m.toNat_lt)

/-- The coefficients of both lists carry the four sums over halves. -/
theorem coeff_mul_numberPolynomial (a : List UInt32) (halves : List Nat) (k : Nat)
    : (toPolynomial (a.map splitCoeff) * Complex.numberPolynomial halves).coeff k
      = ⟨cauchySum (lowHalves a) halves k, cauchySum (highHalves a) halves k⟩ := by
  rw [Complex.toPolynomial_map_splitCoeff, add_mul, mul_assoc, coeff_add, coeff_C_mul,
    Complex.coeff_numberPolynomial_mul, Complex.coeff_numberPolynomial_mul]
  ext <;> simp [Complex.imaginaryUnit]

/-- Rounded and joined, they are the remainders. -/
theorem HalfProducts.joinWords?_eq {first second : List (Complex ℝ)}
    (products : HalfProducts a b first second) (positive : 0 < m.toNat) (small : m.toNat < 2 ^ 31)
    (fits : HalfProductsFit a b) (k : Nat)
    : joinWords? (m.toBitVec.setWidth 64) (CoeffList.coeff first k) (CoeffList.coeff second k)
      = some (remainderAt a b m k) := by
  obtain ⟨word, joined, number⟩ := (smallModulus_widen positive small).exists_joinWords?_eq
    (CoeffList.coeff first k) (CoeffList.coeff second k)
  rw [joined, Option.some.injEq]
  apply UInt32.toNat_inj.mp
  rw [toNat_remainderAt positive]
  rw [← coeff_toPolynomial, ← coeff_toPolynomial, products.first, products.second,
    coeff_mul_numberPolynomial, coeff_mul_numberPolynomial, toInt_widen,
    toInt_round_natCast (fits.lowLow k), toInt_round_natCast (fits.highLow k),
    toInt_round_natCast (fits.lowHigh k), toInt_round_natCast (fits.highHigh k),
    ← cauchySum_map_toNat] at number
  exact_mod_cast number

/-- Joining without checks comes to the same. -/
theorem HalfProducts.joinHalves_eq {first second : List (Complex ℝ)}
    (products : HalfProducts a b first second) (positive : 0 < m.toNat) (small : m.toNat < 2 ^ 31)
    (fits : HalfProductsFit a b) (k : Nat)
    : (joinHalves (Int64.ofNat m.toNat) (CoeffList.coeff first k)
        (CoeffList.coeff second k)).toUInt64.toUInt32
      = remainderAt a b m k := by
  have joined := products.joinWords?_eq positive small fits k
  rw [FastAlgebra.joinWords?_eq positive small] at joined
  exact Option.some.inj joined

/-- The remainders of all coefficients, in order. -/
theorem HalfProducts.map_joinHalves {first second : List (Complex ℝ)}
    (products : HalfProducts a b first second) (positive : 0 < m.toNat) (small : m.toNat < 2 ^ 31)
    (fits : HalfProductsFit a b)
    : ((List.zipWith (joinHalves (Int64.ofNat m.toNat)) first second).take
        (a.length + b.length - 1)).map (·.toUInt64.toUInt32)
      = (List.range (a.length + b.length - 1)).map (remainderAt a b m) := by
  have lengthFirst := products.lengthFirst
  have lengthSecond := products.lengthSecond
  apply List.ext_getElem
  · simp only [List.length_map, List.length_take, List.length_zipWith, List.length_range]
    omega
  · intro k _ inside
    rw [List.length_map, List.length_range] at inside
    have joined := products.joinHalves_eq positive small fits k
    rw [coeff_eq_getElem (by omega), coeff_eq_getElem (by omega)] at joined
    simpa only [List.getElem_map, List.getElem_take, List.getElem_zipWith, List.getElem_range]
      using joined

/-- On words there is one for every coefficient. -/
theorem HalfProducts.mapM_joinAt? {first second : List (Complex ℝ)}
    (products : HalfProducts a b first second) (positive : 0 < m.toNat) (small : m.toNat < 2 ^ 31)
    (fits : HalfProductsFit a b)
    : (List.range (a.length + b.length - 1)).mapM
        (joinAt? (m.toBitVec.setWidth 64) first second)
      = some ((List.range (a.length + b.length - 1)).map (remainderAt a b m)) := by
  have lengthFirst := products.lengthFirst
  have lengthSecond := products.lengthSecond
  apply mapM_eq_some
  intro k member
  have inside := List.mem_range.mp member
  have joined := products.joinWords?_eq positive small fits k
  rw [coeff_eq_getElem (by omega), coeff_eq_getElem (by omega)] at joined
  rw [joinAt?, List.getElem?_eq_getElem (by omega), List.getElem?_eq_getElem (by omega)]
  exact joined

/-- The transforms of the operands, as a pair of lists. -/
noncomputable def imagesOf (plan : Plan (Complex ℝ)) (s : Nat) (a b : List UInt32) : ImagePair ℝ :=
  ⟨(plan.transform (CoeffList.resize (2 ^ s) (a.map splitCoeff))).toArray,
    (plan.transform (CoeffList.resize (2 ^ s) (b.map splitCoeff))).toArray⟩

section Run

variable {plan : Plan (Complex ℝ)} {t s : Nat}

theorem transformed_imagesOf (tables : plan.Tables t) (covered : s ≤ t) (supported : s ≤ 63)
    (left : a.length ≤ 2 ^ s) (right : b.length ≤ 2 ^ s)
    : Complex.Transformed s a b (imagesOf plan s a b) := by
  have valuesA := tables.transform_values covered supported (a := a.map splitCoeff)
    (by rwa [List.length_map])
  have valuesB := tables.transform_values covered supported (a := b.map splitCoeff)
    (by rwa [List.length_map])
  refine ⟨valuesA.length, valuesB.length, ?_, ?_⟩
  · intro i below
    exact (getD_toArray _ i).trans (valuesA.value i below)
  · intro i below
    exact (getD_toArray _ i).trans (valuesB.value i below)

/-- The transforms of the products of halves are the products over halves. -/
theorem halfProducts_transform (tables : plan.Tables t) (covered : s ≤ t) (supported : s ≤ 63)
    (left : a ≠ []) (right : b ≠ []) (long : a.length + b.length - 1 ≤ 2 ^ s)
    : HalfProducts a b
        (plan.transform ((List.range (2 ^ s)).map fun i =>
          (halfProductsAt (imagesOf plan s a b).a (imagesOf plan s a b).b i).1))
        (plan.transform ((List.range (2 ^ s)).map fun i =>
          (halfProductsAt (imagesOf plan s a b).a (imagesOf plan s a b).b i).2)) := by
  have positiveA := List.length_pos_iff.mpr left
  have positiveB := List.length_pos_iff.mpr right
  obtain ⟨first, second⟩ :=
    (transformed_imagesOf tables covered supported (a := a) (b := b) (by omega)
      (by omega)).map_halfProductsAt
  have small (halves : List Nat) (length : halves.length = b.length)
      : (toPolynomial (a.map splitCoeff) * Complex.numberPolynomial halves).degree
        < ((2 ^ s : Nat) : WithBot Nat) := by
    have degree := degree_mul_toPolynomial_lt (a.map splitCoeff)
      (halves.map (Nat.cast : Nat → Complex ℝ))
    rw [List.length_map, List.length_map, length] at degree
    exact degree.trans_le (by exact_mod_cast long)
  rw [first, second]
  refine ⟨by rwa [Plan.length_transform, Complex.length_mirroredValues],
    by rwa [Plan.length_transform, Complex.length_mirroredValues],
    Complex.toPolynomial_transform_mirroredValues tables covered supported
      (small _ (List.length_map _)),
    Complex.toPolynomial_transform_mirroredValues tables covered supported
      (small _ (List.length_map _))⟩

end Run

/-- A modulus in range is not refused. -/
theorem modulus_in_range (positive : 0 < m.toNat) (small : m.toNat < 2 ^ 31)
    : ¬ (m = 0 ∨ powerOfTwo 31 ≤ m.toNat) := by
  rw [powerOfTwo_eq]
  rintro (rfl | large)
  · simp at positive
  · omega

theorem multiplyMod_yields (positive : 0 < m.toNat) (small : m.toNat < 2 ^ 31) (left : a ≠ [])
    (right : b ≠ []) (addressable : a.length + b.length - 1 ≤ 2 ^ 63) (fits : HalfProductsFit a b)
    : (multiplyMod ℝ a b m).Yields
        ((List.range (a.length + b.length - 1)).map (remainderAt a b m)) := by
  obtain ⟨s, t, plan, padded, supported, covered, reserved, tables⟩ :=
    Complex.exists_plan_yields addressable
  have long := padded ▸ le_nextPowerOfTwo (a.length + b.length - 1)
  have products := halfProducts_transform tables covered supported left right long
  rw [multiplyMod, if_neg (modulus_in_range positive small),
    if_neg (not_isEmpty_or_isEmpty left right)]
  simp only [padded]
  refine reserved.bind ?_
  rw [Logged.yields_pure_iff, List.map_map, List.map_map]
  exact products.map_joinHalves positive small fits

theorem multiplyModInPlace_yields (positive : 0 < m.toNat) (small : m.toNat < 2 ^ 31)
    (left : a ≠ []) (right : b ≠ []) (addressable : a.length + b.length - 1 ≤ 2 ^ 63)
    (fits : HalfProductsFit a b)
    : (multiplyModInPlace ℝ a b m).Yields
        (some ((List.range (a.length + b.length - 1)).map (remainderAt a b m))) := by
  obtain ⟨s, t, plan, padded, supported, covered, reserved, tables⟩ :=
    Complex.exists_plan_yields addressable
  have long := padded ▸ le_nextPowerOfTwo (a.length + b.length - 1)
  have products := halfProducts_transform tables covered supported left right long
  rw [multiplyModInPlace, if_neg (modulus_in_range positive small),
    if_neg (not_isEmpty_or_isEmpty left right)]
  simp only [padded]
  have split : (splitWord : UInt32 → Complex ℝ) = splitCoeff := funext splitWord_eq
  have positiveA := List.length_pos_iff.mpr left
  have positiveB := List.length_pos_iff.mpr right
  have transformed := transformed_imagesOf tables covered supported (a := a) (b := b) (by omega)
    (by omega)
  obtain ⟨next, multiplied, entriesA, entriesB⟩ :=
    ImagePair.exists_multiply?_eq transformed.sizeA transformed.sizeB
  have forwards {l : List (Complex ℝ)} (length : l.length = 2 ^ s)
      : (plan.forward l).Yields (plan, plan.transform l) := by
    rw [Steps.forward_of_covered tables length covered]
    exact Logged.yields_pure _
  have sizeA : next.a.toList.length = 2 ^ s := by
    rw [entriesA, List.length_map, List.length_range]
  have sizeB : next.b.toList.length = 2 ^ s := by
    rw [entriesB, List.length_map, List.length_range]
  refine reserved.bind ?_
  refine (forwards (length_resize _ _)).bind ?_
  refine (forwards (length_resize _ _)).bind ?_
  rw [imagesOf] at multiplied
  simp only [split, multiplied]
  refine (forwards sizeA).bind ?_
  refine (forwards sizeB).bind ?_
  rw [Logged.yields_pure_iff, entriesA, entriesB]
  exact products.mapM_joinAt? positive small fits

/-- The product modulo any number below `2 ^ 31` of lists whose length has an address: over exact
complex numbers, each coefficient is the least remainder of the sum of products, in place or not.
Joining the halves stays within signed words whatever the scalars round to.
-/
theorem multiplyMod_exact {a b : List UInt32} {m : UInt32} (positive : 0 < m.toNat)
    (small : m.toNat < 2 ^ 31) (left : a ≠ []) (right : b ≠ [])
    (addressable : a.length + b.length - 1 ≤ 2 ^ 63) (fits : HalfProductsFit a b)
    : (∃ product,
        (multiplyMod ℝ a b m).Yields product
        ∧ (multiplyModInPlace ℝ a b m).Yields (some product)
        ∧ product.length = a.length + b.length - 1
        ∧ ∀ k < a.length + b.length - 1, ∃ v,
            product[k]? = some v
            ∧ v.toNat = cauchySum (a.map UInt32.toNat) (b.map UInt32.toNat) k % m.toNat
            ∧ v.toNat < m.toNat)
      ∧ ∀ (K : Type) [RealScalar K] (first second : Complex K),
          joinWords? (m.toBitVec.setWidth 64) first second
            = some (joinHalves (Int64.ofNat m.toNat) first second).toUInt64.toUInt32 := by
  refine ⟨⟨_, multiplyMod_yields positive small left right addressable fits,
    multiplyModInPlace_yields positive small left right addressable fits, by simp, ?_⟩,
    fun K _ => joinWords?_eq positive small⟩
  intro k inside
  refine ⟨remainderAt a b m k, by simp [inside], toNat_remainderAt positive a b k, ?_⟩
  rw [toNat_remainderAt positive]
  exact Nat.mod_lt _ positive

/-- Coefficients that are not reduced, modulo seven. -/
theorem multiplyMod_exact_seven
    : (multiplyMod ℝ [4294967295, 3] [4294967295] 7).Yields [2, 2]
      ∧ (multiplyModInPlace ℝ [4294967295, 3] [4294967295] 7).Yields (some [2, 2]) := by
  obtain ⟨⟨product, yields, inPlace, length, entries⟩, -⟩ :=
    multiplyMod_exact (a := [4294967295, 3]) (b := [4294967295]) (m := 7) (by decide) (by decide)
      (by decide) (by decide) (by decide) (halfProductsFit_of_length_le (by decide) _)
  obtain ⟨x, y, rfl⟩ := List.length_eq_two.mp length
  obtain ⟨_, first, isFirst, -⟩ := entries 0 (by decide)
  obtain ⟨_, second, isSecond, -⟩ := entries 1 (by decide)
  obtain rfl := Option.some.inj first
  obtain rfl := Option.some.inj second
  obtain rfl : x = 2 := UInt32.toNat_inj.mp (isFirst.trans (by decide))
  obtain rfl : y = 2 := UInt32.toNat_inj.mp (isSecond.trans (by decide))
  exact ⟨yields, inPlace⟩

end FastAlgebra
