import Mathlib
import FastAlgebra.Product.Real.InPlace
import FastAlgebra.Proofs.Entries
import FastAlgebra.Proofs.Transform.Complex
import FastAlgebra.Proofs.Transform.InPlace

/-! Products of real polynomials are exact over exact complex numbers. The square of the packed
operands may be longer than the transform, but only its values count, and its conjugate takes the
squares of both operands away from them. What is left is the product, which is short enough.
-/

namespace FastAlgebra

open CoeffList Polynomial

namespace Complex

-----------------------------------------------------------------------------------------
-- Polynomials with real coefficients
-----------------------------------------------------------------------------------------

/-- The real numbers among the complex ones. -/
noncomputable def realHom : ℝ →+* Complex ℝ where
  toFun := ofReal
  map_zero' := rfl
  map_one' := rfl
  map_add' x y := by ext <;> simp [ofReal]
  map_mul' x y := by ext <;> simp [ofReal]

theorem realHom_apply (x : ℝ) : realHom x = ⟨x, 0⟩ :=
  rfl

/-- At conjugate points a polynomial with real coefficients has conjugate values. -/
theorem conj_eval_map_realHom (p : ℝ[X]) (z : Complex ℝ)
    : ((p.map realHom).eval z).conj = (p.map realHom).eval z.conj := by
  have real : (p.map realHom).map conjHom = p.map realHom := by
    ext1 i
    rw [Polynomial.coeff_map, Polynomial.coeff_map, conjHom_apply]
    exact conj_ofReal _
  exact conj_eval real z

/-- The polynomial with the coefficients of one in its real and of another in its imaginary parts.
-/
noncomputable def packed (p q : ℝ[X]) : (Complex ℝ)[X] :=
  p.map realHom + C imaginaryUnit * q.map realHom

theorem eval_packed (p q : ℝ[X]) (z : Complex ℝ)
    : (packed p q).eval z
      = (p.map realHom).eval z + imaginaryUnit * (q.map realHom).eval z := by
  rw [packed, eval_add, eval_mul, eval_C]

theorem coeff_packed (p q : ℝ[X]) (i : Nat) : (packed p q).coeff i = ⟨p.coeff i, q.coeff i⟩ := by
  rw [packed, coeff_add, coeff_C_mul, Polynomial.coeff_map, Polynomial.coeff_map, realHom_apply,
    realHom_apply]
  ext <;> simp [imaginaryUnit]

/-- At the conjugate point the value of the second part changes its sign. -/
theorem conj_eval_packed (p q : ℝ[X]) (z : Complex ℝ)
    : ((packed p q).eval z).conj
      = (p.map realHom).eval z.conj - imaginaryUnit * (q.map realHom).eval z.conj := by
  rw [eval_packed, ← conj_eval_map_realHom, ← conj_eval_map_realHom]
  ext
  · simp [imaginaryUnit, sub_eq_add_neg]
  · simp [imaginaryUnit, neg_add_eq_sub]

/-- The squares of both parts cancel in the square at the conjugate point less the conjugate square,
and the product of the parts remains.
-/
theorem square_sub_conj_square (p q : ℝ[X]) (z : Complex ℝ)
    : (packed p q).eval z.conj * (packed p q).eval z.conj
        - ((packed p q).eval z * (packed p q).eval z).conj
      = imaginaryUnit * (4 : Nat) * ((p * q).map realHom).eval z.conj := by
  have square (x : Complex ℝ) : (x * x).conj = x.conj * x.conj := map_mul conjHom x x
  rw [square, conj_eval_packed, eval_packed, Polynomial.map_mul, eval_mul]
  push_cast
  ring

end Complex

-----------------------------------------------------------------------------------------
-- Packing
-----------------------------------------------------------------------------------------

/-- A list that is long enough is packed without loss. -/
theorem toPolynomial_zipWith_mk {a b : List ℝ} {n : Nat} (left : a.length ≤ n)
    (right : b.length ≤ n)
    : toPolynomial (List.zipWith Complex.mk (resize n a) (resize n b))
      = Complex.packed (toPolynomial a) (toPolynomial b) := by
  have entry {l : List ℝ} (short : l.length ≤ n) (i : Nat)
      : CoeffList.coeff (resize n l) i = (toPolynomial l).coeff i := by
    rw [← coeff_toPolynomial, toPolynomial_resize, List.take_of_length_le short]
  ext1 i
  rw [Complex.coeff_packed, coeff_toPolynomial]
  rcases Nat.lt_or_ge i n with inside | past
  · rw [coeff_zipWith _ (by rwa [length_resize]) (by rwa [length_resize]), entry left, entry right]
  · rw [coeff_of_length_le (by simpa using past), coeff_toPolynomial, coeff_toPolynomial,
      coeff_of_length_le (left.trans past), coeff_of_length_le (right.trans past)]
    rfl

section InPlace

theorem overwrite_nil {α β : Type} (put : α → β → α) (a : List α) : overwrite put a [] = a := by
  cases a <;> rfl

variable {K : Type} [RealScalar K]

/-- Where a zero changes nothing, the values count as padded with zeros, by induction on the list.
-/
theorem overwrite_eq_zipWith {α : Type} {put : α → K → α} {l : List α}
    (kept : ∀ x ∈ l, put x 0 = x) (values : List K)
    : overwrite put l values = List.zipWith put l (resize l.length values) := by
  induction l generalizing values with
  | nil => rfl
  | cons x rest ih =>
      obtain ⟨here, later⟩ := List.forall_mem_cons.mp kept
      cases values with
      | nil =>
          have padded := ih later []
          rw [overwrite_nil] at padded
          simpa [overwrite, resize, List.replicate_succ, here] using padded
      | cons value values => simpa [overwrite, resize] using ih later values

/-- Written over the parts of zeros, both operands are packed. -/
theorem overwrite_overwrite (a b : List K) (n : Nat)
    : overwrite (fun (z : Complex K) im => { z with im })
        (overwrite (fun z re => { z with re }) (List.replicate n 0) a) b
      = List.zipWith Complex.mk (resize n a) (resize n b) := by
  have reals : overwrite (fun (z : Complex K) re => { z with re }) (List.replicate n 0) a
      = (resize n a).map fun re => ⟨re, 0⟩ := by
    rw [overwrite_eq_zipWith (fun x member => by rw [List.eq_of_mem_replicate member]; rfl)]
    apply List.ext_getElem
    · simp
    · simp; intros; rfl
  rw [reals, overwrite_eq_zipWith]
  · rw [List.length_map, length_resize, List.zipWith_map_left]
  · intro x member
    obtain ⟨re, _, rfl⟩ := List.mem_map.mp member
    rfl

/-- The places that are read are those at the index and at the mirrored one. -/
theorem mapM_crossTermAt? {squares : Array (Complex K)} {s : Nat}
    (size : squares.size = 2 ^ s)
    : (List.range (2 ^ s)).mapM (crossTermAt? squares) = some (crossTerms squares) := by
  rw [crossTerms, size]
  apply mapM_eq_some
  intro i member
  have inside := List.mem_range.mp member
  have there : mirror (2 ^ s) i < squares.size := by
    rw [size]
    exact Nat.mod_lt _ (Nat.two_pow_pos s)
  simp only [crossTermAt?, size, mask_eq_mirror, getElem?_eq_getD there 0,
    getElem?_eq_getD (size ▸ inside) 0, Option.bind_eq_bind, Option.bind_some]
  rfl

end InPlace

-----------------------------------------------------------------------------------------
-- The product
-----------------------------------------------------------------------------------------

section Run

variable {plan : Plan (Complex ℝ)} {t s : Nat} {a b : List ℝ}

/-- What is transformed back are the values of the product, times the imaginary unit and four times
the length, at the mirrored powers of the root.
-/
theorem crossTerms_eq {image : List (Complex ℝ)} {p q : ℝ[X]}
    (values : Values (Complex.root s) (2 ^ s) (Complex.packed p q) image)
    : crossTerms (image.map fun x => x * x).toArray
      = Complex.mirroredValues s
          (C (Complex.imaginaryUnit * (4 : Nat) * (2 ^ s : Nat))
            * (p * q).map Complex.realHom) := by
  have size : (image.map fun x => x * x).toArray.size = 2 ^ s := by
    rw [List.size_toArray, List.length_map, values.length]
  have square {i : Nat} (inside : i < 2 ^ s)
      : (image.map fun x => x * x).toArray.getD i 0
        = (Complex.packed p q).eval (Complex.root s ^ i)
          * (Complex.packed p q).eval (Complex.root s ^ i) := by
    rw [getD_toArray, coeff_map _ (values.length ▸ inside), values.value i inside]
  have unscales := Complex.inverseLength_unscales (Nat.two_pow_pos s)
  rw [crossTerms, size, Complex.mirroredValues]
  apply List.map_congr_left
  intro i member
  have inside := List.mem_range.mp member
  have there : mirror (2 ^ s) i < 2 ^ s := Nat.mod_lt _ (Nat.two_pow_pos s)
  have cross := Complex.square_sub_conj_square p q (Complex.root s ^ i)
  rw [Complex.conj_root_pow inside] at cross
  rw [square inside]
  refine (congrArg (· - _) (square there)).trans (cross.trans ?_)
  rw [eval_mul, eval_mul, eval_C, eval_C]
  calc
    _ = Complex.imaginaryUnit * (4 : Nat)
          * ((p * q).map Complex.realHom).eval (Complex.root s ^ mirror (2 ^ s) i)
          * (TransformScalar.inverseLength (2 ^ s) * (2 ^ s : Nat)) := by rw [unscales, mul_one]
    _ = _ := by ring

theorem degree_product_lt (long : a.length + b.length - 1 ≤ 2 ^ s) (c : Complex ℝ)
    : (C c * (toPolynomial a * toPolynomial b).map Complex.realHom).degree
      < ((2 ^ s : Nat) : WithBot Nat) := by
  rw [degree_lt_iff_coeff_zero]
  intro k past
  have none : (toPolynomial a * toPolynomial b).coeff k = 0 :=
    coeff_eq_zero_of_degree_lt ((degree_mul_toPolynomial_lt a b).trans_le
      (by exact_mod_cast long.trans past))
  rw [coeff_C_mul, Polynomial.coeff_map, none, map_zero, mul_zero]

/-- The imaginary part of a coefficient that is transformed back is four times the length too much.
-/
theorem im_coeff_mul (p : ℝ[X]) (n k : Nat)
    : ((C (Complex.imaginaryUnit * (4 : Nat) * (n : Nat)) * p.map Complex.realHom).coeff k).im
      = p.coeff k * (4 * n) := by
  rw [coeff_C_mul, Polynomial.coeff_map, Complex.realHom_apply]
  have four : ((4 : Nat) : ℝ) = 4 := Nat.cast_ofNat
  simp [-Nat.cast_ofNat, four, Complex.imaginaryUnit, mul_comm]

/-- The imaginary parts of what is transformed back, scaled, are the coefficients of the product. -/
theorem map_im_transform (tables : plan.Tables t) (covered : s ≤ t) (supported : s ≤ 63)
    (left : a ≠ []) (right : b ≠ []) (long : a.length + b.length - 1 ≤ 2 ^ s)
    {image : List (Complex ℝ)}
    (values : Values (Complex.root s) (2 ^ s)
      (Complex.packed (toPolynomial a) (toPolynomial b)) image)
    : ((plan.transform (crossTerms (image.map fun x => x * x).toArray)).take
          (a.length + b.length - 1)).map
        (·.im * (1 / (RealScalar.ofNat 4 * RealScalar.ofNat (2 ^ s))))
      = cauchyProduct a b := by
  have scale : (RealScalar.ofNat 4 * RealScalar.ofNat (2 ^ s) : ℝ) = 4 * (2 ^ s : Nat) := by
    simp [RealScalar.ofNat]
  have nonzero : (4 * (2 ^ s : Nat) : ℝ) ≠ 0 := by positivity
  have product := Complex.toPolynomial_transform_mirroredValues tables covered supported
    (degree_product_lt long (Complex.imaginaryUnit * (4 : Nat) * (2 ^ s : Nat)))
  have length
      : (plan.transform (crossTerms (image.map fun x => x * x).toArray)).length = 2 ^ s := by
    rw [crossTerms_eq values, Plan.length_transform, Complex.length_mirroredValues]
  rw [← crossTerms_eq values] at product
  apply ext_coeff
  · rw [length_schoolbook left right, List.length_map, List.length_take, length,
      Nat.min_eq_left long]
  intro k inside
  rw [List.length_map] at inside
  have below : k < a.length + b.length - 1 :=
    inside.trans_le (List.length_take_le _ _)
  rw [coeff_map _ inside, coeff_take, if_pos below, ← coeff_toPolynomial, product, im_coeff_mul,
    scale, mul_assoc, mul_one_div_cancel nonzero, mul_one, ← toPolynomial_schoolbook,
    coeff_toPolynomial]

/-- The transform of the packed operands holds their values. -/
theorem values_transform_zipWith_mk (tables : plan.Tables t) (covered : s ≤ t) (supported : s ≤ 63)
    (left : a.length ≤ 2 ^ s) (right : b.length ≤ 2 ^ s)
    : Values (Complex.root s) (2 ^ s) (Complex.packed (toPolynomial a) (toPolynomial b))
        (plan.transform (List.zipWith Complex.mk (resize (2 ^ s) a) (resize (2 ^ s) b))) := by
  have length : (List.zipWith Complex.mk (resize (2 ^ s) a) (resize (2 ^ s) b)).length = 2 ^ s := by
    simp
  have whole {l : List (Complex ℝ)} (full : l.length = 2 ^ s) : resize (2 ^ s) l = l := by
    simp [resize, ← full]
  have values := tables.transform_values covered supported length.le
  rw [toPolynomial_zipWith_mk left right] at values
  rwa [whole length] at values

end Run

theorem multiplyReal_yields {a b : List ℝ} (left : a ≠ []) (right : b ≠ [])
    (addressable : a.length + b.length - 1 ≤ 2 ^ 63)
    : (multiplyReal a b).Yields (cauchyProduct a b) := by
  obtain ⟨s, t, plan, padded, supported, covered, reserved, tables⟩ :=
    Complex.exists_plan_yields addressable
  have long := padded ▸ le_nextPowerOfTwo (a.length + b.length - 1)
  have positiveA := List.length_pos_iff.mpr left
  have positiveB := List.length_pos_iff.mpr right
  rw [multiplyReal, if_neg (not_isEmpty_or_isEmpty left right)]
  simp only [padded]
  refine reserved.bind ?_
  rw [Logged.yields_pure_iff]
  exact map_im_transform tables covered supported left right long
    (values_transform_zipWith_mk tables covered supported (by omega) (by omega))

theorem multiplyRealInPlace_yields {a b : List ℝ} (left : a ≠ []) (right : b ≠ [])
    (addressable : a.length + b.length - 1 ≤ 2 ^ 63)
    : (multiplyRealInPlace a b).Yields (some (cauchyProduct a b)) := by
  obtain ⟨s, t, plan, padded, supported, covered, reserved, tables⟩ :=
    Complex.exists_plan_yields addressable
  have long := padded ▸ le_nextPowerOfTwo (a.length + b.length - 1)
  have positiveA := List.length_pos_iff.mpr left
  have positiveB := List.length_pos_iff.mpr right
  have forwards {l : List (Complex ℝ)} (length : l.length = 2 ^ s)
      : (plan.forward l).Yields (plan, plan.transform l) := by
    rw [Steps.forward_of_covered tables length covered]
    exact Logged.yields_pure _
  have values := values_transform_zipWith_mk tables covered supported (a := a) (b := b) (by omega)
    (by omega)
  have product := map_im_transform tables covered supported left right long values
  rw [multiplyRealInPlace, if_neg (not_isEmpty_or_isEmpty left right)]
  simp only [padded, overwrite_overwrite]
  refine reserved.bind ?_
  refine (forwards (by simp)).bind ?_
  rw [mapM_crossTermAt? (by simp [Plan.length_transform])]
  refine (forwards ?_).bind ?_
  · rw [crossTerms_eq values, Complex.length_mirroredValues]
  · rw [Logged.yields_pure_iff, frontOf?, if_pos, Option.map_some]
    · exact congrArg some product
    · rwa [Plan.length_transform, crossTerms_eq values, Complex.length_mirroredValues]

/-- The product of real polynomials whose length has an address: over exact complex numbers it has
all the coefficients, exactly, in place or not. The operands may be of any lengths, so that the
square of the longer one wraps around the transform.
-/
theorem multiplyReal_exact {a b : List ℝ} (left : a ≠ []) (right : b ≠ [])
    (addressable : a.length + b.length - 1 ≤ 2 ^ 63)
    : ∃ product,
        (multiplyReal a b).Yields product
        ∧ (multiplyRealInPlace a b).Yields (some product)
        ∧ product.length = a.length + b.length - 1
        ∧ ∀ k < a.length + b.length - 1,
            product[k]? = some (∑ i ∈ Finset.range (k + 1),
              CoeffList.coeff a i * CoeffList.coeff b (k - i)) := by
  have length := length_schoolbook left right
  refine ⟨cauchyProduct a b, multiplyReal_yields left right addressable,
    multiplyRealInPlace_yields left right addressable, length, ?_⟩
  intro k inside
  rw [← length] at inside
  rw [List.getElem?_eq_getElem inside, ← coeff_eq_getElem inside, coeff_schoolbook]

/-- The square of four entries has seven, and the transform has four. -/
theorem multiplyReal_exact_wrapped
    : (multiplyReal [1, 2, 3, 4] [(5 : ℝ)]).Yields [5, 10, 15, 20]
      ∧ (multiplyRealInPlace [1, 2, 3, 4] [(5 : ℝ)]).Yields (some [5, 10, 15, 20]) := by
  obtain ⟨product, yields, inPlace, length, entries⟩ :=
    multiplyReal_exact (a := [1, 2, 3, 4]) (b := [(5 : ℝ)]) (by simp) (by simp) (by simp)
  have same : product = [5, 10, 15, 20] := by
    apply List.ext_getElem? fun k => ?_
    rcases Nat.lt_or_ge k 4 with inside | past
    · rw [entries k inside]
      interval_cases k <;> norm_num [Finset.sum_range_succ, CoeffList.coeff]
    · rw [List.getElem?_eq_none (by rw [length]; exact past),
        List.getElem?_eq_none (by simpa using past)]
  exact ⟨same ▸ yields, same ▸ inPlace⟩

end FastAlgebra
