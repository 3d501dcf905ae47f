import Mathlib
import FastAlgebra.Complex

/-! Complex numbers over the real numbers, where nothing is lost by rounding. They are a commutative
ring, conjugation keeps its operations, and directions of length one multiply by adding their
angles.
-/

namespace FastAlgebra

-----------------------------------------------------------------------------------------
-- Real scalars
-----------------------------------------------------------------------------------------

/-- The nearest integer, halves away from zero. -/
noncomputable def nearestInteger (x : ℝ) : Int :=
  if 0 ≤ x then ⌊x + 1 / 2⌋ else ⌈x - 1 / 2⌉

theorem abs_sub_nearestInteger_le (x : ℝ) : |x - nearestInteger x| ≤ 1 / 2 := by
  rw [nearestInteger, abs_le]
  split
  · have low := Int.floor_le (x + 1 / 2)
    have high := Int.lt_floor_add_one (x + 1 / 2)
    constructor <;> linarith
  · have low := Int.ceil_lt_add_one (x - 1 / 2)
    have high := Int.le_ceil (x - 1 / 2)
    constructor <;> linarith

/-- A whole number is the only one that is no farther from itself than a half. -/
theorem nearestInteger_natCast (n : Nat) : nearestInteger n = n := by
  have near := abs_sub_nearestInteger_le n
  have distance : |(n : Int) - nearestInteger n| < 1 := by
    have bound : |((n : Int) : ℝ) - nearestInteger n| < 1 := by
      rw [Int.cast_natCast]
      linarith
    exact_mod_cast bound
  rw [Int.abs_lt_one_iff] at distance
  omega

/-- The real numbers as scalars. Rounding to a signed word stops at its ends. -/
noncomputable instance : RealScalar ℝ where
  zero := 0
  one := 1
  add x y := x + y
  sub x y := x - y
  neg x := -x
  mul x y := x * y
  div x y := x / y
  ofNat n := n
  pi := Real.pi
  cos := Real.cos
  sin := Real.sin
  round x := Int64.ofIntClamp (nearestInteger x)

theorem toInt_round_natCast {n : Nat} (fits : n < 2 ^ 63)
    : (RealScalar.round (n : ℝ)).toInt = n := by
  have least : Int64.minValue.toInt = -2 ^ 63 := rfl
  have greatest : Int64.maxValue.toInt = 2 ^ 63 - 1 := rfl
  change (Int64.ofIntClamp (nearestInteger n)).toInt = n
  rw [nearestInteger_natCast, Int64.toInt_ofIntClamp] <;> omega

namespace Complex

-----------------------------------------------------------------------------------------
-- The ring
-----------------------------------------------------------------------------------------

@[ext]
theorem ext {K : Type} {x y : Complex K} (re : x.re = y.re) (im : x.im = y.im) : x = y := by
  cases x
  cases y
  exact congr (congrArg mk re) im

variable (x y : Complex ℝ)

@[simp]
theorem re_zero : (0 : Complex ℝ).re = 0 :=
  rfl

@[simp]
theorem im_zero : (0 : Complex ℝ).im = 0 :=
  rfl

@[simp]
theorem re_one : (1 : Complex ℝ).re = 1 :=
  rfl

@[simp]
theorem im_one : (1 : Complex ℝ).im = 0 :=
  rfl

@[simp]
theorem re_add : (x + y).re = x.re + y.re :=
  rfl

@[simp]
theorem im_add : (x + y).im = x.im + y.im :=
  rfl

@[simp]
theorem re_sub : (x - y).re = x.re - y.re :=
  rfl

@[simp]
theorem im_sub : (x - y).im = x.im - y.im :=
  rfl

@[simp]
theorem re_neg : (-x).re = -x.re :=
  rfl

@[simp]
theorem im_neg : (-x).im = -x.im :=
  rfl

@[simp]
theorem re_mul : (x * y).re = x.re * y.re - x.im * y.im :=
  rfl

@[simp]
theorem im_mul : (x * y).im = x.re * y.im + x.im * y.re :=
  rfl

noncomputable instance : CommRing (Complex ℝ) where
  add_assoc x y z := by ext <;> simp [add_assoc]
  zero_add x := by ext <;> simp
  add_zero x := by ext <;> simp
  add_comm x y := by ext <;> simp [add_comm]
  mul_assoc x y z := by ext <;> simp <;> ring
  one_mul x := by ext <;> simp
  mul_one x := by ext <;> simp
  mul_comm x y := by ext <;> simp <;> ring
  left_distrib x y z := by ext <;> simp <;> ring
  right_distrib x y z := by ext <;> simp <;> ring
  zero_mul x := by ext <;> simp
  mul_zero x := by ext <;> simp
  neg_add_cancel x := by ext <;> simp
  sub_eq_add_neg x y := by ext <;> simp [sub_eq_add_neg]
  natCast n := ⟨n, 0⟩
  natCast_zero := by ext <;> simp
  natCast_succ n := by ext <;> simp
  nsmul := nsmulRec
  zsmul := zsmulRec

@[simp]
theorem re_natCast (n : Nat) : (n : Complex ℝ).re = n :=
  rfl

@[simp]
theorem im_natCast (n : Nat) : (n : Complex ℝ).im = 0 :=
  rfl

-----------------------------------------------------------------------------------------
-- Conjugation
-----------------------------------------------------------------------------------------

@[simp]
theorem re_conj : x.conj.re = x.re :=
  rfl

@[simp]
theorem im_conj : x.conj.im = -x.im :=
  rfl

/-- Conjugation keeps sums and products. -/
noncomputable def conjHom : Complex ℝ →+* Complex ℝ where
  toFun := conj
  map_zero' := by ext <;> simp
  map_one' := by ext <;> simp
  map_add' x y := by ext <;> simp [add_comm]
  map_mul' x y := by
    ext <;> simp
    ring

theorem conjHom_apply : conjHom x = x.conj :=
  rfl

theorem conj_conj : x.conj.conj = x := by
  ext <;> simp

/-- A polynomial with real coefficients has conjugate values at conjugate points. -/
theorem conj_eval {p : Polynomial (Complex ℝ)} (real : p.map conjHom = p) (z : Complex ℝ)
    : (p.eval z).conj = p.eval z.conj := by
  rw [← conjHom_apply, ← Polynomial.eval_map_apply, real, conjHom_apply]

/-- The number whose square is minus one. -/
def imaginaryUnit : Complex ℝ :=
  ⟨0, 1⟩

theorem conj_ofReal (r : ℝ) : (ofReal r).conj = ofReal r := by
  ext <;> simp [ofReal]

-----------------------------------------------------------------------------------------
-- Directions
-----------------------------------------------------------------------------------------

@[simp]
theorem re_polar (theta : ℝ) : (polar 1 theta).re = Real.cos theta :=
  one_mul (Real.cos theta)

@[simp]
theorem im_polar (theta : ℝ) : (polar 1 theta).im = Real.sin theta :=
  one_mul (Real.sin theta)

theorem polar_zero : polar 1 (0 : ℝ) = 1 := by
  ext <;> simp

theorem polar_pi : polar 1 Real.pi = -1 := by
  ext <;> simp

theorem polar_two_pi : polar 1 (2 * Real.pi) = 1 := by
  ext <;> simp

/-- The angles of a product add up. -/
theorem polar_mul_polar (theta phi : ℝ) : polar 1 theta * polar 1 phi = polar 1 (theta + phi) := by
  ext <;> simp [Real.cos_add, Real.sin_add]
  ring

theorem polar_pow (theta : ℝ) (n : Nat) : polar 1 theta ^ n = polar 1 (theta * n) := by
  induction n with
  | zero => rw [pow_zero, Nat.cast_zero, mul_zero, polar_zero]
  | succ n ih => rw [pow_succ, ih, polar_mul_polar, Nat.cast_succ, mul_add, mul_one]

theorem conj_polar_mul (theta : ℝ) : (polar 1 theta).conj * polar 1 theta = 1 := by
  ext
  · simpa [sq] using Real.cos_sq_add_sin_sq theta
  · simp [mul_comm]

/-- The root of the order `2 ^ s`, the first one on the way around. -/
noncomputable def root (s : Nat) : Complex ℝ :=
  polar 1 (2 * Real.pi / 2 ^ s)

end Complex

end FastAlgebra
