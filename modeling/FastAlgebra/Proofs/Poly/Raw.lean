import Mathlib
import FastAlgebra.Poly.Raw
import FastAlgebra.Proofs.Poly.Operations

/-! Operations on bare coefficients keep the normal form. On coefficients in normal form each of
them gives the coefficients that the operation on polynomials gives, also where it does without the
normaliser or takes a shorter way.
-/

namespace FastAlgebra

open Polynomial

namespace RawPoly

variable {R : Type} [CoeffRing R]

/-- The last coefficient is not zero, or there is nothing but a single zero. -/
def Normal (p : RawPoly R) : Prop :=
  p.coeffs = [0] ∨ ∃ c, p.coeffs.getLast? = some c ∧ c ≠ 0

variable [LawfulRing R]

/-- The polynomial of algebra with the same coefficients. -/
noncomputable def toPolynomial (p : RawPoly R) : R[X] :=
  CoeffList.toPolynomial p.coeffs

-----------------------------------------------------------------------------------------
-- The normaliser
-----------------------------------------------------------------------------------------

/-- Where all coefficients are zeros the last one stays, by induction on the others. -/
theorem dropZeros_cons (c : R) (rest : List R)
    : dropZeros (c :: rest)
      = if (c :: rest).dropWhile CoeffRing.isZero = [] then [0]
        else (c :: rest).dropWhile CoeffRing.isZero := by
  induction rest generalizing c with
  | nil =>
      rw [dropZeros, List.dropWhile_cons]
      by_cases zero : CoeffRing.isZero c = true
      · rw [if_pos zero, List.dropWhile_nil, if_pos rfl, (LawfulRing.isZero_iff c).mp zero]
      · rw [if_neg zero, if_neg (List.cons_ne_nil c [])]
  | cons next rest ih =>
      rw [dropZeros]
      by_cases zero : CoeffRing.isZero c = true
      · rw [if_pos zero, List.dropWhile_cons_of_pos zero, ih]
      · rw [if_neg zero, List.dropWhile_cons_of_neg zero, if_neg (List.cons_ne_nil c _)]

/-- The normaliser gives the coefficients in normal form. -/
theorem ofCoeffs_eq_raw (a : List R) : ofCoeffs a = (Poly.ofCoeffs a).raw := by
  have normalised : (Poly.ofCoeffs a).coeffs
      = if CoeffList.trim a = [] then [0] else CoeffList.trim a := by
    rw [Poly.ofCoeffs]
    split <;> rfl
  rw [Poly.raw, normalised, CoeffList.trim, ofCoeffs]
  cases a.reverse with
  | nil => rfl
  | cons c rest =>
      rw [dropZeros_cons]
      by_cases trivial : (c :: rest).dropWhile CoeffRing.isZero = []
      · rw [if_pos trivial, trivial]
        rfl
      · rw [if_neg trivial, if_neg (by simpa using trivial), if_neg (by simpa using trivial)]

/-- Coefficients in normal form are left as they are. -/
theorem ofCoeffs_of_normal {p : RawPoly R} (normal : p.Normal) : ofCoeffs p.coeffs = p := by
  obtain ⟨coeffs⟩ := p
  rcases normal with single | ⟨c, last, nonzero⟩
  · obtain rfl : coeffs = [0] := single
    rfl
  · obtain ⟨start, rfl⟩ : ∃ start, coeffs = start ++ [c] :=
      ⟨coeffs.dropLast, (List.dropLast_append_getLast? c last).symm⟩
    have kept : ¬ CoeffRing.isZero c = true := (LawfulRing.isZero_iff c).not.mpr nonzero
    rw [ofCoeffs, List.reverse_concat, dropZeros_cons, List.dropWhile_cons, if_neg kept,
      if_neg (List.cons_ne_nil c _), List.reverse_cons, List.reverse_reverse,
      if_neg (by simp)]

/-- One digit of the exponent. -/
theorem mulPow_of_pos {F : Type} [KernelField F] (result base : RawPoly F) {n : Nat}
    (positive : 0 < n)
    : mulPow result base n
      = (if n % 2 = 1 then result.mul base else pure result) >>= fun next =>
          (if 0 < n / 2 then base.mul base else pure base) >>= fun square =>
            mulPow next square (n / 2) := by
  rw [mulPow, if_neg (by omega)]
  by_cases odd : n % 2 = 1 <;> by_cases last : 0 < n / 2
  · simp only [if_pos odd, if_pos last]
  · simp only [if_pos odd, if_neg last]
  · simp only [if_neg odd, if_pos last]
  · simp only [if_neg odd, if_neg last]

end RawPoly

namespace Poly

open RawPoly (ofCoeffs_eq_raw ofCoeffs_of_normal)

-----------------------------------------------------------------------------------------
-- Rings
-----------------------------------------------------------------------------------------

section Ring

variable {R : Type} [CoeffRing R]

theorem raw_injective : Function.Injective (raw : Poly R → RawPoly R) := by
  intro p q same
  exact ext (RawPoly.mk.inj same)

@[simp]
theorem degree_raw (p : Poly R) : p.raw.degree = p.degree :=
  rfl

@[simp]
theorem coeff_raw (p : Poly R) (i : Nat) : p.raw.coeff i = p.coeff i :=
  rfl

@[simp]
theorem eval_raw (p : Poly R) (point : R) : p.raw.eval point = p.eval point :=
  List.foldl_reverse

variable [LawfulRing R]

@[simp]
theorem toPolynomial_raw (p : Poly R) : p.raw.toPolynomial = p.toPolynomial :=
  rfl

theorem normal_raw (p : Poly R) : p.raw.Normal := by
  rcases p.normal with single | normal
  · exact .inl single
  · exact .inr ⟨_, List.getLast?_eq_some_getLast p.nonempty,
      (LawfulRing.isZero_eq_false_iff _).mp normal⟩

/-- The normaliser sees the polynomial only. -/
theorem ofCoeffs_congr {a b : List R} (same : CoeffList.toPolynomial a = CoeffList.toPolynomial b)
    : ofCoeffs a = ofCoeffs b := by
  apply toPolynomial_injective
  rw [toPolynomial_ofCoeffs, toPolynomial_ofCoeffs, same]

@[simp]
theorem lead_raw (p : Poly R) : p.raw.lead = p.lead :=
  p.coeff_degree

@[simp]
theorem isZero_raw (p : Poly R) : p.raw.isZero = p.isZero := by
  rw [RawPoly.isZero, isZero, ← coeff_degree]
  by_cases single : p.coeffs.length = 1
  · have first : p.coeff p.degree = p.coeff 0 := by rw [degree, single]
    rw [first]
    rfl
  · have long : (p.coeffs.length == 1) = false := beq_false_of_ne single
    rw [raw, long, Bool.false_and, Bool.false_and]

theorem raw_zero : (zero : Poly R).raw = .zero :=
  congrArg RawPoly.mk (coeffs_eq_of_toPolynomial_eq_zero toPolynomial_zero)

/-- A single one is in normal form, even where it is zero. -/
theorem raw_one : (one : Poly R).raw = .one := by
  have normal : (RawPoly.one : RawPoly R).Normal := by
    by_cases trivial : (1 : R) = 0
    · exact .inl (congrArg (fun c => [c]) trivial)
    · exact .inr ⟨1, rfl, trivial⟩
  rw [← ofCoeffs_of_normal normal, ofCoeffs_eq_raw]
  rfl

theorem raw_constant (c : R) : (constant c).raw = .constant c :=
  (ofCoeffs_eq_raw [c]).symm

theorem raw_x : (x : Poly R).raw = .x :=
  (ofCoeffs_eq_raw [0, 1]).symm

theorem raw_monomial (c : R) (n : Nat) : (monomial c n).raw = .monomial c n := by
  have written : (List.replicate (n + 1) (0 : R)).set n c = List.replicate n 0 ++ [c] := by
    rw [List.replicate_succ', List.set_append_right _ _ (by simp)]
    simp
  rw [RawPoly.monomial, written, ofCoeffs_eq_raw, monomial]

theorem raw_add (p q : Poly R) : (p.add q).raw = p.raw.add q.raw := by
  rw [RawPoly.add, add]
  split
  · rename_i longer
    rw [ofCoeffs_eq_raw]
    congr 1
    apply ofCoeffs_congr
    rw [CoeffList.toPolynomial_add, CoeffList.toPolynomial_addOnto longer]
    rfl
  · rename_i shorter
    rw [ofCoeffs_eq_raw]
    congr 1
    apply ofCoeffs_congr
    rw [CoeffList.toPolynomial_add, CoeffList.toPolynomial_addOnto (Nat.le_of_not_le shorter),
      add_comm]
    rfl

/-- Differences up to a length are the beginning of the difference. -/
theorem ofCoeffs_map_range_sub (a b : List R) (n : Nat)
    : ofCoeffs ((List.range n).map fun i => CoeffList.coeff a i - CoeffList.coeff b i)
      = ofCoeffs ((CoeffList.sub a b).take n) := by
  apply ofCoeffs_congr
  ext i
  rw [CoeffList.coeff_toPolynomial, CoeffList.coeff_toPolynomial, CoeffList.coeff_map_range,
    CoeffList.coeff_take, ← CoeffList.coeff_toPolynomial (CoeffList.sub a b),
    CoeffList.toPolynomial_sub, coeff_sub, CoeffList.coeff_toPolynomial,
    CoeffList.coeff_toPolynomial]

theorem raw_sub (p q : Poly R) : (p.sub q).raw = p.raw.sub q.raw := by
  rw [RawPoly.sub, ofCoeffs_eq_raw]
  congr 1
  refine Eq.trans ?_ (ofCoeffs_map_range_sub p.coeffs q.coeffs _).symm
  rw [List.take_of_length_le (by rw [CoeffList.length_sub]; exact le_refl _), sub]

/-- The negative needs no normaliser: its last coefficient is zero only if the last one is. -/
theorem raw_neg (p : Poly R) : p.neg.raw = p.raw.neg := by
  have normal : p.raw.neg.Normal := by
    rcases p.normal_raw with single | ⟨c, last, nonzero⟩
    · exact .inl (by rw [RawPoly.neg, single, List.map_singleton, neg_zero])
    · exact .inr ⟨-c, by rw [RawPoly.neg, List.getLast?_map, last, Option.map_some],
        neg_ne_zero.mpr nonzero⟩
  rw [← ofCoeffs_of_normal normal, ofCoeffs_eq_raw]
  rfl

theorem raw_scale (p : Poly R) (c : R) : (p.scale c).raw = p.raw.scale c := by
  rw [RawPoly.scale]
  split
  · rename_i vanishes
    rw [← raw_zero]
    congr 1
    rw [← toPolynomial_eq_zero_iff, toPolynomial_scale, (LawfulRing.isZero_iff c).mp vanishes, C_0,
      mul_zero]
  · rw [ofCoeffs_eq_raw]
    rfl

/-- Constants have no derivative, so the shorter way is right. -/
theorem raw_derivative (p : Poly R) : p.derivative.raw = p.raw.derivative := by
  rw [RawPoly.derivative]
  split
  · rename_i constant
    rw [← raw_zero]
    congr 1
    rw [← toPolynomial_eq_zero_iff, toPolynomial_derivative]
    exact derivative_of_natDegree_zero ((natDegree_toPolynomial p).trans constant)
  · rw [ofCoeffs_eq_raw]
    rfl

theorem raw_shift (p : Poly R) (n : Nat) : (p.shift n).raw = p.raw.shift n := by
  rw [RawPoly.shift, isZero_raw]
  by_cases trivial : p.isZero = true
  · rw [shift, if_pos trivial, if_pos (by rw [trivial, Bool.true_or])]
  by_cases none : n = 0
  · rw [if_pos (by rw [none, BEq.rfl, Bool.or_true])]
    congr 1
    apply toPolynomial_injective
    rw [toPolynomial_shift, none, pow_zero, one_mul]
  · rw [shift, if_neg trivial, if_neg (by simp [trivial, none]), ofCoeffs_eq_raw]
    rfl

theorem raw_shiftWithin (p : Poly R) (n : Nat)
    : p.raw.shiftWithin n = raw <$> p.shiftWithin n := by
  rw [RawPoly.shiftWithin, shiftWithin, isZero_raw]
  split
  · rfl
  · rw [ofLength, ofLength]
    split
    · rw [← raw_shift]
      rfl
    · rfl

theorem raw_truncate (p : Poly R) (n : Nat) : (p.truncate n).raw = p.raw.truncate n :=
  (ofCoeffs_eq_raw (p.coeffs.take n)).symm

theorem raw_reverse (p : Poly R) (length : Nat)
    : (p.reverse length).raw = p.raw.reverse length := by
  have listed : (List.range length).map p.raw.coeff = CoeffList.resize length p.coeffs := by
    apply CoeffList.ext_coeff (by simp)
    intro i _
    rw [CoeffList.coeff_map_range, CoeffList.coeff_resize]
    rfl
  rw [RawPoly.reverse, listed, ofCoeffs_eq_raw, reverse]

end Ring

/-- The zero polynomial has nothing to divide by, so it stays as it is either way. -/
theorem raw_monic {F : Type} [CoeffField F] [LawfulField F] (p : Poly F)
    : p.monic.raw = p.raw.monic := by
  rw [RawPoly.monic, monic, lead_raw, isZero_raw]
  cases found : CoeffField.inv? p.lead with
  | none => rfl
  | some inverse =>
      have nonzero : ¬ p.isZero = true := by
        intro trivial
        rw [isZero, Bool.and_eq_true, LawfulRing.isZero_iff] at trivial
        rw [trivial.2, LawfulField.inv?_zero] at found
        exact Option.some_ne_none _ found.symm
      simp only [if_neg nonzero]
      exact raw_scale p inverse

-----------------------------------------------------------------------------------------
-- Products
-----------------------------------------------------------------------------------------

section Kernel

variable {F : Type} [KernelField F]

variable [ExactKernels F]

/-- The product is the same run on both sides. -/
theorem raw_mul (p q : Poly F) : p.raw.mul q.raw = raw <$> p.mul q := by
  rw [RawPoly.mul, mul, isZero_raw, isZero_raw]
  split
  · rw [map_pure, raw_zero]
  · rw [← comp_map]
    congr 1
    funext a
    exact ofCoeffs_eq_raw a

theorem mul_raw_yields {p q r : Poly F} (yields : (p.mul q).Yields r)
    : (p.raw.mul q.raw).Yields r.raw := by
  rw [raw_mul]
  exact yields.map raw

/-- Multiplying by a power is the same run on both sides, by induction on the exponent. -/
theorem raw_mulPow (result base : Poly F) (n : Nat)
    : RawPoly.mulPow result.raw base.raw n = raw <$> mulPow result base n := by
  induction n using Nat.strongRecOn generalizing result base with
  | ind n ih =>
      by_cases none : n = 0
      · rw [RawPoly.mulPow, mulPow, if_pos none, if_pos none, map_pure]
      have digit : (if n % 2 = 1 then result.raw.mul base.raw else pure result.raw)
          = raw <$> (if n % 2 = 1 then result.mul base else pure result) := by
        split
        · exact raw_mul result base
        · rw [map_pure]
      have positive := Nat.pos_of_ne_zero none
      rw [RawPoly.mulPow_of_pos _ _ positive, mulPow_of_pos _ _ positive, digit, bind_map_left,
        map_bind]
      congr 1
      funext next
      by_cases single : n = 1
      · subst single
        rw [if_pos rfl, if_neg (by decide), pure_bind, RawPoly.mulPow, if_pos rfl, map_pure]
      · rw [if_neg single, if_pos (by omega), raw_mul, bind_map_left, map_bind]
        congr 1
        funext square
        exact ih (n / 2) (by omega) next square

/-- Powers agree although the power one takes no product on one side. -/
theorem exists_pow_raw_yields (p : Poly F) (n : Nat)
    : ∃ r, (p.pow n).Yields r ∧ (p.raw.pow n).Yields r.raw
        ∧ r.toPolynomial = p.toPolynomial ^ n := by
  obtain ⟨r, yields, power⟩ := exists_pow_yields p n
  refine ⟨r, yields, ?_, power⟩
  rw [RawPoly.pow]
  split
  · rename_i none
    have same : r = one := by
      apply toPolynomial_injective
      rw [power, none, pow_zero, toPolynomial_one]
    rw [same, raw_one]
    exact Logged.yields_pure _
  split
  · rename_i single
    have same : r = p := by
      apply toPolynomial_injective
      rw [power, single, pow_one]
    rw [same]
    exact Logged.yields_pure _
  · rw [← raw_one, raw_mulPow]
    exact yields.map raw

/-- The product over the roots, by induction along the halving. -/
theorem exists_rootProduct_yields (config : TreeConfig) (roots : List F)
    : ∃ r : Poly F, (RawPoly.rootProduct config roots).Yields r.raw
        ∧ r.toPolynomial = (roots.map fun root => X - C root).prod := by
  induction roots using RawPoly.rootProduct.induct with
  | case1 =>
      refine ⟨one, ?_, toPolynomial_one⟩
      rw [RawPoly.rootProduct, raw_one]
      exact Logged.yields_pure _
  | case2 root =>
      refine ⟨linear root, ?_, by simp⟩
      rw [RawPoly.rootProduct, ofCoeffs_eq_raw]
      exact Logged.yields_pure _
  | case3 first second rest all mid ihl ihr =>
      obtain ⟨left, yieldsLeft, productLeft⟩ := ihl
      obtain ⟨right, yieldsRight, productRight⟩ := ihr
      obtain ⟨product, yields, halves⟩ := exists_mul_yields left right
      refine ⟨product, ?_, ?_⟩
      · rw [RawPoly.rootProduct]
        exact (Logged.Yields.both yieldsLeft yieldsRight).bind (mul_raw_yields yields)
      · rw [halves, productLeft, productRight, ← List.prod_append, ← List.map_append,
          List.take_append_drop]

theorem exists_fromRoots_raw_yields (roots : List F)
    : ∃ r, (fromRoots roots).Yields r ∧ (RawPoly.fromRoots roots).Yields r.raw
        ∧ r.toPolynomial = (roots.map fun root => X - C root).prod := by
  obtain ⟨r, yields, product⟩ := exists_fromRoots_yields roots
  obtain ⟨bare, yieldsBare, same⟩ := exists_rootProduct_yields .standard roots
  obtain rfl : bare = r := toPolynomial_injective (same.trans product.symm)
  exact ⟨bare, yields, (Logged.yields_emit _).bind yieldsBare, product⟩

-----------------------------------------------------------------------------------------
-- Division
-----------------------------------------------------------------------------------------

theorem raw_longDivRem (p d : Poly F)
    : p.raw.longDivRem d.raw = Prod.map raw raw <$> p.longDivRem d := by
  rw [RawPoly.longDivRem, longDivRem, lead_raw]
  cases CoeffField.inv? d.lead with
  | none => rfl
  | some leadInverse =>
      simp only [ofCoeffs_eq_raw]
      rfl

theorem raw_seriesDivRem (p d : Poly F)
    : p.raw.seriesDivRem d.raw = Prod.map raw raw <$> p.seriesDivRem d := by
  have remainders : ∀ product : Poly F,
      ofCoeffs ((List.range d.degree).map fun i => p.coeff i - product.coeff i)
        = ofCoeffs ((CoeffList.sub p.coeffs product.coeffs).take d.degree) :=
    fun product => ofCoeffs_map_range_sub p.coeffs product.coeffs d.degree
  rw [RawPoly.seriesDivRem, seriesDivRem]
  simp only [map_bind, map_pure, ofCoeffs_eq_raw, raw_mul, bind_map_left, coeff_raw, degree_raw,
    remainders]
  rfl

/-- Division is the same run on both sides, whichever method it takes. -/
theorem raw_divRem (p d : Poly F) : p.raw.divRem d.raw = Prod.map raw raw <$> p.divRem d := by
  rw [RawPoly.divRem, divRem, isZero_raw, isZero_raw, raw_longDivRem, raw_seriesDivRem]
  simp only [apply_ite (Prod.map raw raw <$> ·), Logged.map_refuse, Logged.map_ofResult, map_pure,
    Prod.map_apply, raw_zero]
  rfl

end Kernel

end Poly

end FastAlgebra
