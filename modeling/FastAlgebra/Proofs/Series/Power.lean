import Mathlib
import FastAlgebra.Proofs.Series.Exponential

/-! Powers of power series. A power is found through the logarithm of the unit part, whose
multiple is the logarithm of the power: `u (k l)' = k u'` turns into `u ^ k (k l)' = (u ^ k)'`. The
exponent may be larger than any precision, and only the terms behind the start of the power have
to be short of the characteristic.
-/

namespace FastAlgebra.Series

open Polynomial

/-- A positive power starts no earlier than the series, so the unit part has all the terms that
remain.
-/
theorem exists_remaining {R : Type} {a : Series R} {p k : Nat} (positive : 0 < k)
    (within : p * k < a.precision)
    : ∃ n, a.precision - p * k = n ∧ 0 < n ∧ p * k + n = a.precision
        ∧ p + n ≤ a.precision := by
  have later : p ≤ p * k := Nat.le_mul_of_pos_right p positive
  exact ⟨_, rfl, by omega, by omega, by omega⟩

section Ring

variable {R : Type} [CoeffRing R] [LawfulRing R]

/-- The series `b` is the product of `k` copies of `a`, cut at the precision of `a`. -/
structure IsPower (a : Series R) (k : Nat) (b : Series R) : Prop where
  precision : b.precision = a.precision
  close : X ^ a.precision ∣ b.toPolynomial - a.toPolynomial ^ k

/-- A series has one power. -/
theorem IsPower.unique {a b c : Series R} {k : Nat} (first : IsPower a k b)
    (second : IsPower a k c)
    : b = c := by
  apply eq_of_X_pow_dvd (first.precision.trans second.precision.symm)
  rw [second.precision, ← sub_sub_sub_cancel_right _ _ (a.toPolynomial ^ k)]
  exact dvd_sub first.close second.close

/-- No factors at all have the product one. -/
theorem isPower_one (a : Series R) : IsPower a 0 (one a.precision) := by
  refine ⟨CoeffList.length_resize _ _, ?_⟩
  have cut := CoeffList.X_pow_dvd_sub_take a.precision [(1 : R)]
  rw [CoeffList.toPolynomial_singleton, C_1, ← CoeffList.toPolynomial_resize] at cut
  rw [pow_zero]
  exact dvd_sub_comm.mp cut

/-- Zero is the power wherever the power has no known terms. -/
theorem isPower_zero {a : Series R} {k : Nat} (past : X ^ a.precision ∣ a.toPolynomial ^ k)
    : IsPower a k (zero a.precision) := by
  refine ⟨CoeffList.length_resize _ _, ?_⟩
  have none : (zero a.precision : Series R).toPolynomial = 0 := by
    rw [toPolynomial, zero, CoeffList.toPolynomial_resize, List.take_nil,
      CoeffList.toPolynomial_nil]
  rw [none, zero_sub]
  exact past.neg_right

theorem toPolynomial_scale (a : Series R) (c : R)
    : (a.scale c).toPolynomial = C c * a.toPolynomial := by
  have exchanged : (· * c) = (c * · : R → R) := funext fun x => mul_comm x c
  rw [toPolynomial, scale, exchanged, CoeffList.toPolynomial_map_mul_left]
  rfl

/-- Every polynomial has its series to any precision. -/
theorem exists_series (q : R[X]) (n : Nat)
    : ∃ c : Series R, c.precision = n ∧ X ^ n ∣ c.toPolynomial - q := by
  refine ⟨⟨(List.range n).map q.coeff⟩, by simp [precision], ?_⟩
  rw [X_pow_dvd_iff]
  intro i below
  rw [Polynomial.coeff_sub, coeff_toPolynomial, coeff,
    CoeffList.coeff_eq_getElem (by simpa using below)]
  simp

-----------------------------------------------------------------------------------------
-- Valuations
-----------------------------------------------------------------------------------------

/-- The first term of the series that is not zero has the degree `p`. -/
structure HasValuation (a : Series R) (p : Nat) : Prop where
  lead : a.coeff p ≠ 0
  first : ∀ i < p, a.coeff i = 0

theorem isNonzero_coeff (a : Series R) (i : Nat) (known : i < a.coeffs.length)
    : (!CoeffRing.isZero a.coeffs[i]) = true ↔ a.coeff i ≠ 0 := by
  rw [Bool.not_eq_true', LawfulRing.isZero_eq_false_iff, coeff, CoeffList.coeff_eq_getElem known]

/-- The search finds the first term that is not zero. -/
theorem valuation?_eq_some_iff {a : Series R} {p : Nat}
    : a.valuation? = some p ↔ a.HasValuation p := by
  rw [valuation?, List.findIdx?_eq_some_iff_getElem]
  constructor
  · rintro ⟨known, nonzero, before⟩
    refine ⟨(a.isNonzero_coeff p known).mp nonzero, ?_⟩
    intro i earlier
    by_contra other
    exact before i earlier ((a.isNonzero_coeff i (earlier.trans known)).mpr other)
  · intro ⟨lead, first⟩
    have known : p < a.coeffs.length := lt_precision_of_coeff_ne_zero lead
    refine ⟨known, (a.isNonzero_coeff p known).mpr lead, ?_⟩
    intro i earlier other
    exact (a.isNonzero_coeff i (earlier.trans known)).mp other (first i earlier)

/-- A series in which the search finds nothing is zero. -/
theorem toPolynomial_eq_zero_of_valuation?_eq_none {a : Series R} (none : a.valuation? = none)
    : a.toPolynomial = 0 := by
  ext i
  rw [coeff_toPolynomial, Polynomial.coeff_zero]
  by_contra nonzero
  have known := lt_precision_of_coeff_ne_zero nonzero
  have zero := List.findIdx?_eq_none_iff.mp none a.coeffs[i] (List.getElem_mem known)
  exact absurd ((a.isNonzero_coeff i known).mpr nonzero) (by simp [zero])

namespace HasValuation

variable {a : Series R} {p : Nat}

theorem lt_precision (valuation : a.HasValuation p) : p < a.precision :=
  lt_precision_of_coeff_ne_zero valuation.lead

/-- A series begins with the power of the variable that its first term has. -/
theorem toPolynomial_eq (valuation : a.HasValuation p)
    : a.toPolynomial = X ^ p * CoeffList.toPolynomial (a.coeffs.drop p) := by
  have start : CoeffList.toPolynomial (a.coeffs.take p) = 0 := by
    ext i
    rw [CoeffList.coeff_toPolynomial, CoeffList.coeff_take, Polynomial.coeff_zero]
    split
    · rename_i earlier
      exact valuation.first i earlier
    · rfl
  rw [toPolynomial, CoeffList.toPolynomial_take_add_drop valuation.lt_precision.le, start, zero_add]

/-- A power begins at the multiple of where the series begins. -/
theorem toPolynomial_pow (valuation : a.HasValuation p) (k : Nat)
    : a.toPolynomial ^ k
      = X ^ (p * k) * CoeffList.toPolynomial (a.coeffs.drop p) ^ k := by
  rw [valuation.toPolynomial_eq, mul_pow, pow_mul]

end HasValuation

end Ring

variable {F : Type} [KernelField F] [ExactKernels F]

/-- The power starts within the precision, and from its start on there are more terms than the
characteristic has room for.
-/
structure PowerObstructed (a : Series F) (k p : Nat) : Prop where
  valuation : a.HasValuation p
  positive : 0 < k
  within : p * k < a.precision
  small : CharacteristicBelow F (a.precision - p * k)

-----------------------------------------------------------------------------------------
-- Powers by the logarithm
-----------------------------------------------------------------------------------------

/-- The multiple of a logarithm is the logarithm of the power, whatever the exponent is in the
field.
-/
theorem IsLogarithm.pow {b c l : Series F} (isLog : IsLogarithm b l) {k : Nat}
    (isPower : IsPower b k c)
    : IsLogarithm c (l.scale (CoeffRing.ofNat k)) := by
  have close := isPower.close
  have scaled := toPolynomial_scale l (CoeffRing.ofNat k)
  refine ⟨?_, ?_, ?_, ?_⟩
  · exact List.length_map .. |>.trans (isLog.precision.trans isPower.precision.symm)
  · rw [coeff_eq_of_X_pow_dvd close isLog.positive, Polynomial.coeff_zero_eq_eval_zero, eval_pow,
      ← Polynomial.coeff_zero_eq_eval_zero, coeff_toPolynomial, isLog.one, one_pow]
  · rw [← coeff_toPolynomial, scaled, coeff_C_mul, coeff_toPolynomial, isLog.zero, mul_zero]
  · have image : C (CoeffRing.ofNat k : F) = (k : F[X]) := by
      rw [LawfulRing.ofNat_eq_cast, C_eq_natCast]
    have expanded : c.toPolynomial
            * Polynomial.derivative (l.scale (CoeffRing.ofNat k)).toPolynomial
          - Polynomial.derivative c.toPolynomial
        = (c.toPolynomial - b.toPolynomial ^ k)
            * Polynomial.derivative (l.scale (CoeffRing.ofNat k)).toPolynomial
          - (Polynomial.derivative c.toPolynomial
            - Polynomial.derivative (b.toPolynomial ^ k))
          + (k : F[X]) * b.toPolynomial ^ (k - 1)
            * (b.toPolynomial * Polynomial.derivative l.toPolynomial
              - Polynomial.derivative b.toPolynomial) := by
      rw [scaled, image, derivative_mul, derivative_natCast, derivative_pow, C_eq_natCast]
      cases k with
      | zero => simp
      | succ k =>
          rw [Nat.add_sub_cancel]
          ring
    rw [isPower.precision, expanded]
    refine dvd_add (dvd_sub ?_ ?_) ?_
    · exact dvd_mul_of_dvd_left ((pow_dvd_pow X (Nat.sub_le _ _)).trans close) _
    · exact X_pow_dvd_derivative_sub close (Nat.le_refl _)
    · exact dvd_mul_of_dvd_right isLog.slope _

/-- The exponential of a multiple of the logarithm is the power. -/
theorem exists_exp_scale_yields {b l : Series F} (isLog : IsLogarithm b l)
    (nonzero : NonzeroBelow F b.precision) (k : Nat)
    : ∃ e, (l.scale (CoeffRing.ofNat k)).exp.Yields e ∧ IsPower b k e := by
  obtain ⟨c, precision, close⟩ := exists_series (b.toPolynomial ^ k) b.precision
  have isPower : IsPower b k c := ⟨precision, close⟩
  have target := isLog.pow isPower
  have known : (l.scale (CoeffRing.ofNat k)).precision = b.precision :=
    target.precision.trans precision
  obtain ⟨e, yields, other⟩ := exists_exp_yields (known ▸ isLog.positive) (known ▸ nonzero)
    target.zero
  obtain rfl := other.unique_exponential (known ▸ nonzero) target
  exact ⟨e, yields, isPower⟩

-----------------------------------------------------------------------------------------
-- Powers by the unit part
-----------------------------------------------------------------------------------------

/-- What stands behind the first term that is not zero, to `n` terms and with that term made one.
-/
def unitPart (a : Series F) (p n : Nat) : Series F :=
  ⟨((a.coeffs.drop p).take n).map (· * (a.coeff p)⁻¹)⟩

section UnitPart

variable {a : Series F} {p n : Nat}

theorem precision_unitPart (room : p + n ≤ a.precision) : (a.unitPart p n).precision = n := by
  simp only [precision, unitPart, List.length_map, List.length_take, List.length_drop] at room ⊢
  omega

theorem coeff_zero_unitPart (valuation : a.HasValuation p) (positive : 0 < n)
    : (a.unitPart p n).coeff 0 = 1 := by
  have known : p < a.coeffs.length := valuation.lt_precision
  have lead : a.coeff p = a.coeffs[p] := CoeffList.coeff_eq_getElem known
  have first : (a.unitPart p n).coeffs[0]? = some (a.coeffs[p] * (a.coeff p)⁻¹) := by
    simp [unitPart, positive, known]
  rw [coeff, CoeffList.coeff, List.getD_eq_getElem?_getD, first, Option.getD_some, ← lead,
    mul_inv_cancel₀ valuation.lead]

/-- The first term times the unit part agrees with the series behind its start. -/
theorem X_pow_dvd_unitPart (valuation : a.HasValuation p)
    : X ^ n ∣ CoeffList.toPolynomial (a.coeffs.drop p)
        - C (a.coeff p) * (a.unitPart p n).toPolynomial := by
  have whole : C (a.coeff p) * (a.unitPart p n).toPolynomial
      = CoeffList.toPolynomial ((a.coeffs.drop p).take n) := by
    have scaled := toPolynomial_scale ⟨(a.coeffs.drop p).take n⟩ (a.coeff p)⁻¹
    change (a.unitPart p n).toPolynomial = _ at scaled
    rw [scaled, ← mul_assoc, ← C_mul, mul_inv_cancel₀ valuation.lead, C_1, one_mul]
    rfl
  rw [whole]
  exact CoeffList.X_pow_dvd_sub_take n _

/-- A power of the unit part, brought to its place and multiplied by the power of the first term,
is the power of the series.
-/
theorem HasValuation.isPower (valuation : a.HasValuation p) {k : Nat} {e : Series F}
    (start : p * k + n = a.precision) (room : p + n ≤ a.precision)
    (isPower : IsPower (a.unitPart p n) k e)
    : IsPower a k
        ⟨List.replicate (p * k) 0 ++ e.coeffs.map (· * CoeffRing.pow (a.coeff p) k)⟩ := by
  have known := precision_unitPart room
  have unitPower := isPower.close
  rw [known] at unitPower
  refine ⟨?_, ?_⟩
  · have length : e.coeffs.length = n := isPower.precision.trans known
    simp only [precision, List.length_append, List.length_replicate, List.length_map, length]
    exact start
  · have powers : X ^ n ∣ CoeffList.toPolynomial (a.coeffs.drop p) ^ k
        - (C (a.coeff p) * (a.unitPart p n).toPolynomial) ^ k :=
      (X_pow_dvd_unitPart valuation).trans (sub_dvd_pow_sub_pow _ _ k)
    have scaled := toPolynomial_scale e (CoeffRing.pow (a.coeff p) k)
    have expanded : (Series.mk (List.replicate (p * k) 0
            ++ e.coeffs.map (· * CoeffRing.pow (a.coeff p) k))).toPolynomial - a.toPolynomial ^ k
        = X ^ (p * k) * (C (a.coeff p) ^ k
              * (e.toPolynomial - (a.unitPart p n).toPolynomial ^ k)
            - (CoeffList.toPolynomial (a.coeffs.drop p) ^ k
              - (C (a.coeff p) * (a.unitPart p n).toPolynomial) ^ k)) := by
      rw [valuation.toPolynomial_pow, toPolynomial, CoeffList.toPolynomial_append,
        CoeffList.toPolynomial_replicate_zero, List.length_replicate]
      change 0 + X ^ (p * k) * (e.scale (CoeffRing.pow (a.coeff p) k)).toPolynomial - _ = _
      rw [scaled, LawfulRing.pow_eq, C_pow]
      ring
    rw [← start, pow_add, expanded]
    exact mul_dvd_mul_left _ (dvd_sub (dvd_mul_of_dvd_right unitPower _) powers)

/-- Where the numbers up to the remaining precision are not zero, the power is found. -/
theorem exists_powFrom_yields (valuation : a.HasValuation p) {k : Nat} (positive : 0 < k)
    (within : p * k < a.precision) (nonzero : NonzeroBelow F (a.precision - p * k))
    : ∃ b, (a.powFrom p k).Yields b ∧ IsPower a k b := by
  obtain ⟨n, remaining, some, start, room⟩ := exists_remaining positive within
  have known := precision_unitPart room
  rw [remaining, ← known] at nonzero
  obtain ⟨l, logs, isLog⟩ := exists_log_yields nonzero (coeff_zero_unitPart valuation some)
  obtain ⟨e, exponential, isPower⟩ := exists_exp_scale_yields isLog nonzero k
  refine ⟨_, ?_, valuation.isPower start room isPower⟩
  simp only [powFrom, LawfulField.inv?_eq_some valuation.lead, remaining]
  exact logs.bind (exponential.bind ((Logged.yields_emit _).bind (Logged.yields_pure _)))

/-- Where the characteristic is below the remaining precision, the power is refused. -/
theorem powFrom_fails (valuation : a.HasValuation p) {k : Nat} (positive : 0 < k)
    (within : p * k < a.precision) (small : CharacteristicBelow F (a.precision - p * k))
    : (a.powFrom p k).Fails (.refused (.zeroDivisor (ringChar F))) := by
  obtain ⟨n, remaining, some, start, room⟩ := exists_remaining positive within
  have known := precision_unitPart room
  rw [remaining, ← known] at small
  have refused := log_fails small (coeff_zero_unitPart valuation some)
  simp only [powFrom, LawfulField.inv?_eq_some valuation.lead, remaining]
  exact refused.bind _

end UnitPart

-----------------------------------------------------------------------------------------
-- All powers
-----------------------------------------------------------------------------------------

variable {a : Series F} {k : Nat}

/-- Every power that is not obstructed is found, by cases on where it starts. -/
theorem exists_pow_yields (free : ∀ p, ¬ PowerObstructed a k p)
    : ∃ b, (a.pow k).Yields b ∧ IsPower a k b := by
  unfold pow
  split
  · rename_i none
    subst none
    exact ⟨_, Logged.yields_pure _, isPower_one a⟩
  · rename_i some
    have positive : 0 < k := Nat.pos_of_ne_zero some
    split
    · rename_i zero
      refine ⟨_, Logged.yields_pure _, isPower_zero ?_⟩
      rw [toPolynomial_eq_zero_of_valuation?_eq_none zero, zero_pow some]
      exact dvd_zero _
    · rename_i p found
      have valuation := valuation?_eq_some_iff.mp found
      split
      · rename_i past
        refine ⟨_, Logged.yields_pure _, isPower_zero ?_⟩
        rw [valuation.toPolynomial_pow]
        exact dvd_mul_of_dvd_left (pow_dvd_pow X past) _
      · rename_i within
        rw [Nat.not_le] at within
        apply exists_powFrom_yields valuation positive within
        rw [nonzeroBelow_iff]
        intro small
        exact free p ⟨valuation, positive, within, small⟩

/-- An obstructed power is refused with the characteristic. -/
theorem pow_fails {p : Nat} (obstructed : PowerObstructed a k p)
    : (a.pow k).Fails (.refused (.zeroDivisor (ringChar F))) := by
  have found := valuation?_eq_some_iff.mpr obstructed.valuation
  rw [pow, if_neg obstructed.positive.ne', found]
  simp only [Nat.not_le.mpr obstructed.within, if_false]
  exact powFrom_fails obstructed.valuation obstructed.positive obstructed.within obstructed.small

/-- Multiplying by the series `k` more times raises a power by `k`, by induction on `k`. -/
theorem exists_products_yield (a : Series F) (k : Nat) {j : Nat} {b : Series F}
    (isPower : IsPower a j b)
    : ∃ c, ((List.replicate k a).foldlM mul b).Yields c ∧ IsPower a (j + k) c := by
  induction k generalizing j b with
  | zero => exact ⟨b, Logged.yields_pure b, isPower⟩
  | succ k ih =>
      obtain ⟨next, multiplies, precision, close⟩ := exists_mul_yields b a
      rw [isPower.precision, Nat.min_self] at precision
      have raised : IsPower a (j + 1) next := by
        refine ⟨precision, ?_⟩
        have expanded : next.toPolynomial - a.toPolynomial ^ (j + 1)
            = (next.toPolynomial - b.toPolynomial * a.toPolynomial)
              + (b.toPolynomial - a.toPolynomial ^ j) * a.toPolynomial := by ring
        rw [expanded]
        exact dvd_add (precision ▸ close) (dvd_mul_of_dvd_left isPower.close _)
      obtain ⟨c, rest, last⟩ := ih raised
      refine ⟨c, ?_, Nat.succ_add_eq_add_succ j k ▸ last⟩
      rw [List.replicate_succ, List.foldlM_cons]
      exact multiplies.bind rest

/-- A power is the product of `k` copies of the series, at the precision of the series and for every
exponent. It is refused exactly where it starts within the precision and the characteristic is
below the number of the terms from there on, and the refusal names the characteristic.
-/
theorem pow_exact {F : Type} [KernelField F] [LibraryField F] (a : Series F) (k : Nat)
    : ((∀ p, ¬ PowerObstructed a k p) → ∃ b, (a.pow k).Yields b)
      ∧ (∀ b, (a.pow k).Yields b
          → IsPower a k b
            ∧ ((List.replicate k a).foldlM mul (one a.precision)).Yields b)
      ∧ (∀ fault, (a.pow k).Fails fault
          ↔ (∃ p, PowerObstructed a k p) ∧ fault = .refused (.zeroDivisor (ringChar F))) := by
  refine ⟨?_, ?_, ?_⟩
  · intro free
    obtain ⟨b, yields, _⟩ := exists_pow_yields free
    exact ⟨b, yields⟩
  · intro b yields
    have free : ∀ p, ¬ PowerObstructed a k p :=
      fun p obstructed => yields.not_fails _ (pow_fails obstructed)
    obtain ⟨c, found, isPower⟩ := exists_pow_yields free
    obtain rfl := yields.unique found
    obtain ⟨product, multiplies, other⟩ := exists_products_yield a k (isPower_one a)
    rw [Nat.zero_add] at other
    obtain rfl := other.unique isPower
    exact ⟨isPower, multiplies⟩
  · intro fault
    constructor
    · intro fails
      by_cases obstructed : ∃ p, PowerObstructed a k p
      · obtain ⟨p, obstructs⟩ := obstructed
        exact ⟨⟨p, obstructs⟩, fails.unique (pow_fails obstructs)⟩
      · obtain ⟨b, yields, _⟩ := exists_pow_yields (not_exists.mp obstructed)
        exact absurd fails (yields.not_fails fault)
    · rintro ⟨⟨p, obstructs⟩, rfl⟩
      exact pow_fails obstructs

theorem pow_exact_seventeen
    : ((Series.mk ([0, 2, 3, 0, 5] : List (Residue Modulus.seventeen))).pow 2).Yields
          ⟨[0, 0, 4, 12, 9]⟩
      ∧ IsPower (Series.mk ([0, 2, 3, 0, 5] : List (Residue Modulus.seventeen))) 2
          ⟨[0, 0, 4, 12, 9]⟩
      ∧ PowerObstructed (constant (1 : Residue Modulus.seventeen) 18) (2 ^ 64 - 1) 0
      ∧ ((constant (1 : Residue Modulus.seventeen) 18).pow (2 ^ 64 - 1)).Fails
          (.refused (.zeroDivisor 17)) := by
  have characteristic : ringChar (Residue Modulus.seventeen) = 17 := Residue.ringChar_eq
  obtain ⟨found, exact, _⟩ :=
    pow_exact (Series.mk ([0, 2, 3, 0, 5] : List (Residue Modulus.seventeen))) 2
  obtain ⟨b, yields⟩ := found (by
    intro p obstructed
    have below := obstructed.small.below
    rw [characteristic] at below
    simp [precision] at below
    omega)
  obtain ⟨isPower, multiplies⟩ := exact b yields
  have product : ((List.replicate 2 (Series.mk
      ([0, 2, 3, 0, 5] : List (Residue Modulus.seventeen)))).foldlM mul (one 5)).Yields
        ⟨[0, 0, 4, 12, 9]⟩ := by
    rw [Logged.Yields]
    decide +kernel
  obtain rfl := multiplies.unique product
  have obstructed
      : PowerObstructed (constant (1 : Residue Modulus.seventeen) 18) (2 ^ 64 - 1) 0 := by
    refine ⟨⟨by decide, fun i below => absurd below (Nat.not_lt_zero i)⟩, by decide, by decide, ?_⟩
    refine ⟨?_, ?_⟩
    · rw [characteristic]
      decide
    · rw [characteristic]
      decide
  obtain ⟨_, _, refused⟩ := pow_exact (constant (1 : Residue Modulus.seventeen) 18) (2 ^ 64 - 1)
  exact ⟨yields, isPower, obstructed,
    (refused _).mpr ⟨⟨0, obstructed⟩, by rw [characteristic]⟩⟩

end FastAlgebra.Series
