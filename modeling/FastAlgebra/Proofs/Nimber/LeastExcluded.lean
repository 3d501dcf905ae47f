import Mathlib
import FastAlgebra.Proofs.Nimber.Field

/-! The product of nimbers is the one of combinatorial game theory: the least number that no sum
`x' y + x y' + x' y'` with smaller factors hits. The product itself is not hit, because a field has
no divisors of zero. That every smaller number is hit is carried from level to level of the tower,
together with which numbers have the form `z ^ 2 + z`.
-/

namespace FastAlgebra

-----------------------------------------------------------------------------------------
-- Products of halves
-----------------------------------------------------------------------------------------

/-- Two joined halves, as a sum. -/
theorem shiftLeft_xor_eq_add {high low width : Nat} (h : low < 2 ^ width)
    : high <<< width ^^^ low = 2 ^ width * high + low := by
  have upper : (high <<< width ^^^ low) >>> width = high := shiftLeft_xor_shiftRight h
  have lower : (high <<< width ^^^ low) % 2 ^ width = low := shiftLeft_xor_mod h
  rw [Nat.shiftRight_eq_div_pow] at upper
  rw [← Nat.div_add_mod (high <<< width ^^^ low) (2 ^ width), upper, lower]

theorem eq_zero_of_shiftLeft_xor {high low width : Nat} (h : low < 2 ^ width)
    (zero : high <<< width ^^^ low = 0)
    : high = 0 ∧ low = 0 := by
  have positive := Nat.two_pow_pos width
  rw [shiftLeft_xor_eq_add h, Nat.add_eq_zero_iff, Nat.mul_eq_zero] at zero
  exact ⟨zero.1.resolve_left positive.ne', zero.2⟩

/-- A lesser upper half makes a lesser number, whatever the lower half. -/
theorem shiftLeft_xor_lt_shiftLeft {high less low width : Nat} (h : low < 2 ^ width)
    (smaller : less < high)
    : less <<< width ^^^ low < high <<< width := by
  rw [shiftLeft_xor_eq_add h, Nat.shiftLeft_eq, mul_comm high]
  calc
    2 ^ width * less + low < 2 ^ width * less + 2 ^ width := Nat.add_lt_add_left h _
    _ = 2 ^ width * (less + 1) := by ring
    _ ≤ 2 ^ width * high := Nat.mul_le_mul_left _ smaller

/-- The halves of a number join to it. -/
theorem shiftRight_shiftLeft_xor_mod (x width : Nat)
    : (x >>> width) <<< width ^^^ x % 2 ^ width = x := by
  rw [shiftLeft_xor_eq_add (Nat.mod_lt x (Nat.two_pow_pos width)), Nat.shiftRight_eq_div_pow,
    Nat.div_add_mod]

theorem shiftRight_lt_of_lt_shiftLeft {x high width : Nat} (h : x < high <<< width)
    : x >>> width < high := by
  rw [Nat.shiftRight_eq_div_pow]
  apply Nat.div_lt_of_lt_mul
  rwa [Nat.shiftLeft_eq, mul_comm] at h

/-- A number of one level is a number of the next. -/
theorem lt_next {x k : Nat} (h : x < 2 ^ 2 ^ k) : x < 2 ^ 2 ^ (k + 1) :=
  h.trans_le (two_pow_two_pow_le (Nat.le_succ k))

theorem shiftLeft_lt {x k : Nat} (h : x < 2 ^ 2 ^ k) : x <<< 2 ^ k < 2 ^ 2 ^ (k + 1) := by
  rw [← Nat.xor_zero (x <<< 2 ^ k)]
  exact shiftLeft_xor_lt h (Nat.two_pow_pos _)

@[simp]
theorem nimProduct_zero_left (k y : Nat) : nimProduct k 0 y = 0 := by
  cases k with
  | zero => exact Nat.zero_and y
  | succ k => exact if_pos (.inl rfl)

@[simp]
theorem nimProduct_zero_right (k x : Nat) : nimProduct k x 0 = 0 := by
  cases k with
  | zero => exact Nat.and_zero x
  | succ k => exact if_pos (.inr rfl)

/-- The product of two numbers of the next level, zero or not. -/
theorem nimProduct_join (k : Nat) {a b c d : Nat} (hb : b < 2 ^ 2 ^ k) (hd : d < 2 ^ 2 ^ k)
    : nimProduct (k + 1) (a <<< 2 ^ k ^^^ b) (c <<< 2 ^ k ^^^ d)
      = (nimProduct k a c ^^^ (nimProduct k a d ^^^ nimProduct k b c)) <<< 2 ^ k
        ^^^ (nimProduct k b d ^^^ nimProduct k (nimProduct k a c) (2 ^ (2 ^ k - 1))) := by
  rw [nimProduct]
  simp only [powerOfTwo_eq, shiftLeft_xor_shiftRight hb, shiftLeft_xor_shiftRight hd,
    shiftLeft_xor_mod hb, shiftLeft_xor_mod hd]
  split
  · rename_i zero
    rcases zero with left | right
    · obtain ⟨rfl, rfl⟩ := eq_zero_of_shiftLeft_xor hb left
      simp
    · obtain ⟨rfl, rfl⟩ := eq_zero_of_shiftLeft_xor hd right
      simp
  · rfl

-----------------------------------------------------------------------------------------
-- Numbers below a product
-----------------------------------------------------------------------------------------

/-- Every number below the product of `x` and `y` is a sum `x' y + x y' + x' y'` with smaller
factors. In the field of the level such a sum `z` satisfies `(x + x') (y + y') = x y + z`.
-/
def Reaches (k : Nat) {K : Type} [CommRing K] (value : Nat → K) (x y : Nat) : Prop :=
  ∀ z < nimProduct k x y, ∃ x' < x, ∃ y' < y,
    (value x + value x') * (value y + value y') = value x * value y + value z

/-- A level of the tower with the two facts about the order of the numbers that the next level
rests on: the numbers below half of the level have the form `z ^ 2 + z`, and what is below a product
is reached.
-/
structure OrderedLevel (k : Nat) (K : Type) [Field K] (value : Nat → K) : Prop
    extends NimLevel k K value where
  half : ∀ n < 2 ^ (2 ^ k - 1), ∃ z : K, z ^ 2 + z = value n
  reaches : ∀ x < 2 ^ 2 ^ k, ∀ y < 2 ^ 2 ^ k, Reaches k value x y

namespace NimLevel

variable {k : Nat} {K : Type} [Field K] {value : Nat → K}

theorem nimProduct_comm (level : NimLevel k K value) {x y : Nat} (hx : x < 2 ^ 2 ^ k)
    (hy : y < 2 ^ 2 ^ k)
    : nimProduct k x y = nimProduct k y x := by
  apply level.injective _ (nimProduct_lt hx hy) _ (nimProduct_lt hy hx)
  rw [level.product x hx y hy, level.product y hy x hx, mul_comm]

theorem nimProduct_xor (level : NimLevel k K value) {x₁ x₂ y : Nat} (h₁ : x₁ < 2 ^ 2 ^ k)
    (h₂ : x₂ < 2 ^ 2 ^ k) (hy : y < 2 ^ 2 ^ k)
    : nimProduct k (x₁ ^^^ x₂) y = nimProduct k x₁ y ^^^ nimProduct k x₂ y := by
  have sum := Nat.xor_lt_two_pow h₁ h₂
  have first := nimProduct_lt h₁ hy
  have second := nimProduct_lt h₂ hy
  apply level.injective _ (nimProduct_lt sum hy) _ (Nat.xor_lt_two_pow first second)
  rw [level.product _ sum y hy, level.xor x₁ h₁ x₂ h₂, level.xor _ first _ second,
    level.product x₁ h₁ y hy, level.product x₂ h₂ y hy, add_mul]

/-- Different numbers have a sum other than zero. -/
theorem add_ne_zero (level : NimLevel k K value) {x y : Nat} (hx : x < 2 ^ 2 ^ k)
    (hy : y < 2 ^ 2 ^ k) (different : y ≠ x)
    : value x + value y ≠ 0 := by
  intro zero
  apply different
  apply level.injective y hy x hx
  linear_combination zero - value x * level.two_eq_zero

/-- Every element is a square: squaring as often as there are digits changes nothing. -/
theorem exists_sq_eq (level : NimLevel k K value) (z : K) : ∃ w : K, w ^ 2 = z := by
  by_cases zero : z = 0
  · exact ⟨0, by rw [zero, zero_pow two_ne_zero]⟩
  · refine ⟨z ^ 2 ^ (2 ^ k - 1), ?_⟩
    have digits : 2 ^ k - 1 + 1 = 2 ^ k := Nat.sub_add_cancel (Nat.two_pow_pos k)
    have all : 2 ^ 2 ^ k - 1 + 1 = 2 ^ 2 ^ k := Nat.sub_add_cancel (Nat.two_pow_pos (2 ^ k))
    rw [← pow_mul, ← pow_succ, digits, ← all, pow_succ, level.pow_eq_one zero, one_mul]

end NimLevel

namespace Reaches

variable {k : Nat} {K : Type} [Field K] {value : Nat → K}

theorem symm (level : NimLevel k K value) {x y : Nat} (hx : x < 2 ^ 2 ^ k) (hy : y < 2 ^ 2 ^ k)
    (reaches : Reaches k value x y)
    : Reaches k value y x := by
  intro z below
  rw [level.nimProduct_comm hy hx] at below
  obtain ⟨x', hx', y', hy', sum⟩ := reaches z below
  refine ⟨y', hy', x', hx', ?_⟩
  rw [mul_comm, sum, mul_comm (value x)]

/-- A factor can be taken apart into its halves, because to lower one half is to lower the number
and the product distributes.
-/
theorem join (level : NimLevel (k + 1) K value) {high low y : Nat} (hh : high < 2 ^ 2 ^ k)
    (hl : low < 2 ^ 2 ^ k) (hy : y < 2 ^ 2 ^ (k + 1))
    (upper : Reaches (k + 1) value (high <<< 2 ^ k) y)
    (lower : Reaches (k + 1) value low y)
    : Reaches (k + 1) value (high <<< 2 ^ k ^^^ low) y := by
  have highFits := shiftLeft_lt hh
  have lowFits := lt_next hl
  have highProduct := nimProduct_lt highFits hy
  have lowProduct := nimProduct_lt lowFits hy
  intro z below
  rw [level.nimProduct_xor highFits lowFits hy] at below
  have zFits := below.trans (Nat.xor_lt_two_pow highProduct lowProduct)
  -- Without the product of one part, what remains of `z` is below the product of the other.
  rcases Nat.lt_xor_cases below with rest | rest
  · obtain ⟨x', hx', y', hy', sum⟩ := upper _ rest
    rw [level.xor z zFits _ lowProduct, level.product low lowFits y hy] at sum
    refine ⟨x' ^^^ low, ?_, y', hy', ?_⟩
    · rw [← shiftRight_shiftLeft_xor_mod x' (2 ^ k), Nat.xor_assoc]
      calc
        _ < high <<< 2 ^ k := by
          apply shiftLeft_xor_lt_shiftLeft
          · exact Nat.xor_lt_two_pow (Nat.mod_lt x' (Nat.two_pow_pos _)) hl
          · exact shiftRight_lt_of_lt_shiftLeft hx'
        _ ≤ high <<< 2 ^ k ^^^ low := by
          rw [shiftLeft_xor_eq_add hl, Nat.shiftLeft_eq, mul_comm]
          exact Nat.le_add_right _ _
    · rw [level.xor _ highFits _ lowFits, level.xor x' (hx'.trans highFits) _ lowFits]
      linear_combination sum + value low * (value y + value y') * level.two_eq_zero
  · obtain ⟨x', hx', y', hy', sum⟩ := lower _ rest
    rw [level.xor z zFits _ highProduct, level.product _ highFits y hy] at sum
    have fits := hx'.trans hl
    refine ⟨high <<< 2 ^ k ^^^ x', ?_, y', hy', ?_⟩
    · rw [shiftLeft_xor_eq_add hl, shiftLeft_xor_eq_add fits]
      exact Nat.add_lt_add_left hx' _
    · rw [level.xor _ highFits _ lowFits, level.xor _ highFits x' (lt_next fits)]
      linear_combination sum + value (high <<< 2 ^ k) * (value y + value y') * level.two_eq_zero

theorem join_right (level : NimLevel (k + 1) K value) {x high low : Nat}
    (hx : x < 2 ^ 2 ^ (k + 1)) (hh : high < 2 ^ 2 ^ k) (hl : low < 2 ^ 2 ^ k)
    (upper : Reaches (k + 1) value x (high <<< 2 ^ k)) (lower : Reaches (k + 1) value x low)
    : Reaches (k + 1) value x (high <<< 2 ^ k ^^^ low) :=
  (join level hh hl hx (upper.symm level hx (shiftLeft_lt hh))
    (lower.symm level hx (lt_next hl))).symm level (shiftLeft_xor_lt hh hl) hx

end Reaches

-----------------------------------------------------------------------------------------
-- From level to level
-----------------------------------------------------------------------------------------

namespace OrderedLevel

variable {k : Nat} {K : Type} [Field K] {value : Nat → K}

/-- The element that a number of the next level names, by its halves. -/
def halves (k : Nat) (value : Nat → K) (x : Nat)
    : QuadraticAlgebra K (value (2 ^ (2 ^ k - 1))) 1 :=
  ⟨value (x % 2 ^ 2 ^ k), value (x >>> 2 ^ k)⟩

theorem halves_join {high low : Nat} (h : low < 2 ^ 2 ^ k)
    : halves k value (high <<< 2 ^ k ^^^ low) = ⟨value low, value high⟩ := by
  rw [halves, shiftLeft_xor_mod h, shiftLeft_xor_shiftRight h]

theorem halves_low (level : NimLevel k K value) {low : Nat} (h : low < 2 ^ 2 ^ k)
    : halves k value low = ⟨value low, 0⟩ := by
  rw [halves, Nat.mod_eq_of_lt h, Nat.shiftRight_eq_div_pow, Nat.div_eq_of_lt h, level.zero]

theorem halves_high (level : NimLevel k K value) (high : Nat)
    : halves k value (high <<< 2 ^ k) = ⟨0, value high⟩ := by
  rw [← Nat.xor_zero (high <<< 2 ^ k), halves_join (Nat.two_pow_pos (2 ^ k)), level.zero]

/-- Two lower halves: the level below. -/
theorem reaches_low_low (level : OrderedLevel k K value) {b d : Nat} (hb : b < 2 ^ 2 ^ k)
    (hd : d < 2 ^ 2 ^ k)
    : Reaches (k + 1) (halves k value) b d := by
  have product := nimProduct_join k (a := 0) (c := 0) hb hd
  simp only [Nat.zero_shiftLeft, Nat.zero_xor, nimProduct_zero_left, nimProduct_zero_right,
    Nat.xor_zero] at product
  intro z below
  rw [product] at below
  obtain ⟨b', hb', d', hd', sum⟩ := level.reaches b hb d hd z below
  refine ⟨b', hb', d', hd', ?_⟩
  rw [halves_low level.toNimLevel hb, halves_low level.toNimLevel (hb'.trans hb),
    halves_low level.toNimLevel hd, halves_low level.toNimLevel (hd'.trans hd),
    halves_low level.toNimLevel (below.trans (nimProduct_lt hb hd))]
  ext
  · simpa using sum
  · simp

/-- An upper and a lower half: the level below reaches the upper half of the number, and since the
lowered factors differ from the factors, the free lower half can bring the lower half about.
-/
theorem reaches_high_low (level : OrderedLevel k K value) {a d : Nat} (ha : a < 2 ^ 2 ^ k)
    (hd : d < 2 ^ 2 ^ k)
    : Reaches (k + 1) (halves k value) (a <<< 2 ^ k) d := by
  have product := nimProduct_join k (a := a) (c := 0) (Nat.two_pow_pos (2 ^ k)) hd
  simp only [Nat.zero_shiftLeft, Nat.zero_xor, nimProduct_zero_left, nimProduct_zero_right,
    Nat.xor_zero] at product
  intro z below
  rw [product] at below
  obtain ⟨a', ha', d', hd', sum⟩ :=
    level.reaches a ha d hd _ (shiftRight_lt_of_lt_shiftLeft below)
  have different := level.add_ne_zero hd (hd'.trans hd) hd'.ne
  obtain ⟨b', hb', free⟩ :=
    level.surjective (value (z % 2 ^ 2 ^ k) * (value d + value d')⁻¹)
  refine ⟨a' <<< 2 ^ k ^^^ b', shiftLeft_xor_lt_shiftLeft hb' ha', d', hd', ?_⟩
  rw [halves_high level.toNimLevel, halves_join hb', halves_low level.toNimLevel hd,
    halves_low level.toNimLevel (hd'.trans hd), halves]
  ext
  · simp [free, different]
  · simpa using sum

/-- Two upper halves, where the upper half of the number is below that of their product. The level
below lowers the factors so that the upper half comes out, and since every element is a square, the
free lower halves can bring any lower half about.
-/
theorem exists_mul_eq_of_high_lt (level : OrderedLevel k K value) {a c high : Nat}
    (ha : a < 2 ^ 2 ^ k) (hc : c < 2 ^ 2 ^ k) (smaller : high < nimProduct k a c) (low : K)
    : ∃ a' < a, ∃ c' < c, ∃ β δ : K,
        (⟨β, value a + value a'⟩ * ⟨δ, value c + value c'⟩
            : QuadraticAlgebra K (value (2 ^ (2 ^ k - 1))) 1)
          = ⟨value (2 ^ (2 ^ k - 1)) * (value a * value c) + low,
              value a * value c + value high⟩ := by
  obtain ⟨a', ha', c', hc', sum⟩ := level.reaches a ha c hc high smaller
  have left := level.add_ne_zero ha (ha'.trans ha) ha'.ne
  have right := level.add_ne_zero hc (hc'.trans hc) hc'.ne
  obtain ⟨β, square⟩ := level.exists_sq_eq
    ((value (2 ^ (2 ^ k - 1)) * value high + low) * (value a + value a')
      * (value c + value c')⁻¹)
  -- With this `δ` the mixed terms cancel, and `β` is such that `β δ` makes up the lower half.
  refine ⟨a', ha', c', hc', β, β * (value c + value c') * (value a + value a')⁻¹, ?_⟩
  generalize value a + value a' = α at *
  generalize value c + value c' = γ at *
  ext
  · have lowered : β * (β * γ * α⁻¹) = value (2 ^ (2 ^ k - 1)) * value high + low := by
      have split : β * (β * γ * α⁻¹) = β ^ 2 * γ * α⁻¹ := by ring
      rw [split, square]
      field_simp
    rw [QuadraticAlgebra.re_mul]
    linear_combination lowered + value (2 ^ (2 ^ k - 1)) * sum
      + value (2 ^ (2 ^ k - 1)) * value high * level.two_eq_zero
  · have balanced : α * (β * γ * α⁻¹) = β * γ := by field_simp
    rw [QuadraticAlgebra.im_mul]
    linear_combination sum + balanced + β * γ * level.two_eq_zero

/-- Two upper halves, where only the lower half of the number is below that of their product. The
product of the two units of the upper halves contributes `F / 2`, the number `2 ^ (2 ^ k - 1)`, and
lowering that leaves an element of the form `t ^ 2 + t`.
-/
theorem exists_mul_eq_of_low_lt (level : OrderedLevel k K value) {a c low : Nat}
    (ha : a < 2 ^ 2 ^ k) (hc : c < 2 ^ 2 ^ k)
    (smaller : low < nimProduct k (nimProduct k a c) (2 ^ (2 ^ k - 1)))
    : ∃ a' < a, ∃ c' < c, ∃ β δ : K,
        (⟨β, value a + value a'⟩ * ⟨δ, value c + value c'⟩
            : QuadraticAlgebra K (value (2 ^ (2 ^ k - 1))) 1)
          = ⟨value (2 ^ (2 ^ k - 1)) * (value a * value c) + value low,
              value a * value c + value (nimProduct k a c)⟩ := by
  obtain ⟨p, hp, h, hh, outer⟩ :=
    level.reaches _ (nimProduct_lt ha hc) _ (two_pow_pred_lt k) _ smaller
  obtain ⟨a', ha', c', hc', inner⟩ := level.reaches a ha c hc p hp
  obtain ⟨t, root⟩ := level.half h hh
  rw [level.product a ha c hc] at outer ⊢
  -- The mixed terms add up to the upper product, and `β δ` to `t ^ 2 + t` times it.
  refine ⟨a', ha', c', hc', t * (value a + value a'), (t + 1) * (value c + value c'), ?_⟩
  generalize value a + value a' = α at *
  generalize value c + value c' = γ at *
  ext
  · rw [QuadraticAlgebra.re_mul]
    linear_combination (value (2 ^ (2 ^ k - 1)) + value h) * inner + outer + α * γ * root
  · rw [QuadraticAlgebra.im_mul]
    linear_combination (t * α * γ + α * γ - value a * value c) * level.two_eq_zero

/-- A number below two joined halves has a lesser upper half, or the same one and a lesser lower
half.
-/
theorem lt_shiftLeft_xor {z high low width : Nat} (h : low < 2 ^ width)
    (below : z < high <<< width ^^^ low)
    : z >>> width < high ∨ z >>> width = high ∧ z % 2 ^ width < low := by
  rw [shiftLeft_xor_eq_add h, ← Nat.div_add_mod z (2 ^ width)] at below
  rw [Nat.shiftRight_eq_div_pow]
  rcases Nat.lt_trichotomy (z / 2 ^ width) high with less | same | more
  · exact .inl less
  · right
    rw [same] at below
    exact ⟨same, Nat.lt_of_add_lt_add_left below⟩
  · have above := Nat.mul_le_mul_left (2 ^ width) (Nat.succ_le_of_lt more)
    rw [Nat.succ_eq_add_one, Nat.mul_add, Nat.mul_one] at above
    omega

/-- Two upper halves. -/
theorem reaches_high_high (level : OrderedLevel k K value) {a c : Nat} (ha : a < 2 ^ 2 ^ k)
    (hc : c < 2 ^ 2 ^ k)
    : Reaches (k + 1) (halves k value) (a <<< 2 ^ k) (c <<< 2 ^ k) := by
  have product := nimProduct_join k (a := a) (c := c) (Nat.two_pow_pos (2 ^ k))
    (Nat.two_pow_pos (2 ^ k))
  simp only [nimProduct_zero_left, nimProduct_zero_right, Nat.xor_zero, Nat.zero_xor] at product
  have lowFits := nimProduct_lt (nimProduct_lt ha hc) (two_pow_pred_lt k)
  intro z below
  rw [product] at below
  have found : ∃ a' < a, ∃ c' < c, ∃ β δ : K,
      (⟨β, value a + value a'⟩ * ⟨δ, value c + value c'⟩
          : QuadraticAlgebra K (value (2 ^ (2 ^ k - 1))) 1)
        = ⟨value (2 ^ (2 ^ k - 1)) * (value a * value c) + value (z % 2 ^ 2 ^ k),
            value a * value c + value (z >>> 2 ^ k)⟩ := by
    rcases lt_shiftLeft_xor lowFits below with less | ⟨same, less⟩
    · exact level.exists_mul_eq_of_high_lt ha hc less _
    · rw [same]
      exact level.exists_mul_eq_of_low_lt ha hc less
  obtain ⟨a', ha', c', hc', β, δ, sum⟩ := found
  obtain ⟨b', hb', rfl⟩ := level.surjective β
  obtain ⟨d', hd', rfl⟩ := level.surjective δ
  refine ⟨a' <<< 2 ^ k ^^^ b', shiftLeft_xor_lt_shiftLeft hb' ha', c' <<< 2 ^ k ^^^ d',
    shiftLeft_xor_lt_shiftLeft hd' hc', ?_⟩
  have lowered : ∀ u v w : K, (⟨0, u⟩ + ⟨v, w⟩ : QuadraticAlgebra K (value (2 ^ (2 ^ k - 1))) 1)
      = ⟨v, u + w⟩ := by
    intro u v w
    ext <;> simp
  rw [halves_high level.toNimLevel, halves_high level.toNimLevel, halves_join hb',
    halves_join hd', halves, lowered, lowered, sum]
  ext <;> simp [mul_assoc]

/-- Of an element and the element plus `F / 2`, one has the form `t ^ 2 + t`: the top digit decides.
-/
theorem exists_sq_add (level : OrderedLevel k K value) (r : K)
    : ∃ t : K, t ^ 2 + t = r ∨ t ^ 2 + t = r + value (2 ^ (2 ^ k - 1)) := by
  obtain ⟨n, fits, rfl⟩ := level.surjective r
  have digits : 2 ^ k - 1 + 1 = 2 ^ k := Nat.sub_add_cancel (Nat.two_pow_pos k)
  have lowFits : n % 2 ^ (2 ^ k - 1) < 2 ^ (2 ^ k - 1) := Nat.mod_lt n (Nat.two_pow_pos _)
  have joined := mod_two_pow_xor (digits.symm ▸ fits : n < 2 ^ (2 ^ k - 1 + 1))
  obtain ⟨t, root⟩ := level.half _ lowFits
  refine ⟨t, ?_⟩
  rw [root]
  split at joined
  · right
    have sum := level.xor _ (lowFits.trans (two_pow_pred_lt k)) _ (two_pow_pred_lt k)
    rw [joined] at sum
    linear_combination -sum - value (2 ^ (2 ^ k - 1)) * level.two_eq_zero
  · left
    rw [Nat.xor_zero] at joined
    rw [joined]

/-- The numbers below half of the next level: the upper half determines its root up to one, and that
choice makes the lower half come out.
-/
theorem half_next (level : OrderedLevel k K value) {n : Nat} (h : n < 2 ^ (2 ^ (k + 1) - 1))
    : ∃ z, z ^ 2 + z = halves k value n := by
  have upper : n >>> 2 ^ k < 2 ^ (2 ^ k - 1) := by
    have exponent : 2 ^ (k + 1) - 1 = 2 ^ k + (2 ^ k - 1) := by
      have := Nat.two_pow_pos k
      omega
    rw [Nat.shiftRight_eq_div_pow]
    apply Nat.div_lt_of_lt_mul
    rwa [← pow_add, ← exponent]
  obtain ⟨s, high⟩ := level.half _ upper
  obtain ⟨t, low | low⟩ :=
    level.exists_sq_add (value (n % 2 ^ 2 ^ k) + value (2 ^ (2 ^ k - 1)) * s ^ 2)
  · refine ⟨⟨t, s⟩, ?_⟩
    rw [halves]
    ext
    · simp [sq]
      linear_combination low + value (2 ^ (2 ^ k - 1)) * s ^ 2 * level.two_eq_zero
    · simp [sq]
      linear_combination high + t * s * level.two_eq_zero
  · refine ⟨⟨t, s + 1⟩, ?_⟩
    rw [halves]
    ext
    · simp [sq]
      linear_combination low
        + value (2 ^ (2 ^ k - 1)) * (s ^ 2 + s + 1) * level.two_eq_zero
    · simp [sq]
      linear_combination high + (t * s + t + s + 1) * level.two_eq_zero

theorem next (level : OrderedLevel k K value)
    [Fact (∀ z : K, z ^ 2 ≠ value (2 ^ (2 ^ k - 1)) + 1 * z)]
    : OrderedLevel (k + 1) (QuadraticAlgebra K (value (2 ^ (2 ^ k - 1))) 1) (halves k value) where
  toNimLevel := level.toNimLevel.next
  half n h := level.half_next h
  reaches x hx y hy := by
    have next : NimLevel (k + 1) _ (halves k value) := level.toNimLevel.next
    have highX := shiftRight_lt hx
    have lowX := Nat.mod_lt x (Nat.two_pow_pos (2 ^ k))
    have highY := shiftRight_lt hy
    have lowY := Nat.mod_lt y (Nat.two_pow_pos (2 ^ k))
    have upper : Reaches (k + 1) (halves k value) ((x >>> 2 ^ k) <<< 2 ^ k) y := by
      rw [← shiftRight_shiftLeft_xor_mod y (2 ^ k)]
      exact Reaches.join_right next (shiftLeft_lt highX) highY lowY
        (level.reaches_high_high highX highY) (level.reaches_high_low highX lowY)
    have lower : Reaches (k + 1) (halves k value) (x % 2 ^ 2 ^ k) y := by
      rw [← shiftRight_shiftLeft_xor_mod y (2 ^ k)]
      exact Reaches.join_right next (lt_next lowX) highY lowY
        ((level.reaches_high_low highY lowX).symm next (shiftLeft_lt highY) (lt_next lowX))
        (level.reaches_low_low lowX lowY)
    rw [← shiftRight_shiftLeft_xor_mod x (2 ^ k)]
    exact Reaches.join next highX lowX hy upper lower

/-- On the numbers zero and one there is only the product of ones to reach below. -/
theorem base : OrderedLevel 0 (ZMod 2) Nat.cast where
  toNimLevel := .base
  half n h := by
    obtain rfl : n = 0 := by simpa using h
    exact ⟨0, by simp⟩
  reaches x hx y hy z below := by
    have small : x < 2 ∧ y < 2 := ⟨hx, hy⟩
    obtain ⟨rfl | rfl, rfl | rfl⟩ : (x = 0 ∨ x = 1) ∧ (y = 0 ∨ y = 1) := by omega
    · exact absurd below (by simp)
    · exact absurd below (by simp)
    · exact absurd below (by simp)
    · obtain rfl : z = 0 := Nat.lt_one_iff.mp below
      exact ⟨0, Nat.one_pos, 0, Nat.one_pos, by simp⟩

end OrderedLevel

/-- Every level of the tower reaches what is below its products, by induction on the level. -/
theorem exists_orderedLevel (k : Nat)
    : ∃ (K : Type) (_ : Field K) (value : Nat → K), OrderedLevel k K value := by
  induction k with
  | zero => exact ⟨ZMod 2, inferInstance, Nat.cast, .base⟩
  | succ k ih =>
      obtain ⟨K, field, value, level⟩ := ih
      have : Fact (∀ z : K, z ^ 2 ≠ value (2 ^ (2 ^ k - 1)) + 1 * z) := ⟨level.sq_ne⟩
      exact ⟨_, inferInstance, _, level.next⟩

-----------------------------------------------------------------------------------------
-- Words
-----------------------------------------------------------------------------------------

namespace Nimber

variable {K : Type} [Field K] {value : Nat → K}

/-- A sum `x' y + x y' + x' y'` in the field at the top of the tower. -/
theorem value_sum_products (level : NimLevel 6 K value) (x y x' y' : Nimber)
    : value (x' * y + x * y' + x' * y').word.toNat
      = (value x.word.toNat + value x'.word.toNat) * (value y.word.toNat + value y'.word.toNat)
        - value x.word.toNat * value y.word.toNat := by
  have sum : ∀ u v : Nimber,
      value (u + v).word.toNat = value u.word.toNat + value v.word.toNat :=
    fun u v => level.value_word_xor u.word v.word
  simp only [sum, level.value_mul]
  ring

/-- The product of words is the nim-product at their level. -/
theorem toNat_mul (level : NimLevel 6 K value) (x y : Nimber)
    : (x * y).word.toNat = nimProduct 6 x.word.toNat y.word.toNat := by
  have left := x.word.toNat_lt
  have right := y.word.toNat_lt
  apply level.injective _ (x * y).word.toNat_lt _ (nimProduct_lt left right)
  rw [level.value_mul, level.product _ left _ right]

/-- The product is not such a sum, because `(x + x') (y + y')` has no factor zero. -/
theorem mul_ne_sum_products {x y x' y' : Nimber} (hx : x'.word < x.word) (hy : y'.word < y.word)
    : (x * y).word.toNat ≠ (x' * y + x * y' + x' * y').word.toNat := by
  obtain ⟨K, field, value, level⟩ := exists_orderedLevel 6
  intro same
  have zero : (value x.word.toNat + value x'.word.toNat)
      * (value y.word.toNat + value y'.word.toNat) = 0 := by
    have sum := value_sum_products level.toNimLevel x y x' y'
    rw [← same, level.value_mul] at sum
    linear_combination -sum + value x.word.toNat * value y.word.toNat * level.two_eq_zero
  have left := level.add_ne_zero x.word.toNat_lt x'.word.toNat_lt
    (UInt64.lt_iff_toNat_lt.mp hx).ne
  have right := level.add_ne_zero y.word.toNat_lt y'.word.toNat_lt
    (UInt64.lt_iff_toNat_lt.mp hy).ne
  exact mul_ne_zero left right zero

/-- Every number below the product is such a sum, because the top level reaches it. -/
theorem exists_eq_sum_products {x y : Nimber} {n : Nat} (below : n < (x * y).word.toNat)
    : ∃ x' y' : Nimber, x'.word < x.word ∧ y'.word < y.word
        ∧ n = (x' * y + x * y' + x' * y').word.toNat := by
  obtain ⟨K, field, value, level⟩ := exists_orderedLevel 6
  rw [toNat_mul level.toNimLevel] at below
  have left := x.word.toNat_lt
  have right := y.word.toNat_lt
  obtain ⟨x', hx, y', hy, sum⟩ := level.reaches _ left _ right n below
  have nameX : (UInt64.ofNat x').toNat = x' := UInt64.toNat_ofNat_of_lt' (hx.trans left)
  have nameY : (UInt64.ofNat y').toNat = y' := UInt64.toNat_ofNat_of_lt' (hy.trans right)
  refine ⟨⟨.ofNat x'⟩, ⟨.ofNat y'⟩, ?_, ?_, ?_⟩
  · rwa [UInt64.lt_iff_toNat_lt, nameX]
  · rwa [UInt64.lt_iff_toNat_lt, nameY]
  · apply level.injective n (below.trans (nimProduct_lt left right)) _ (UInt64.toNat_lt _)
    rw [value_sum_products level.toNimLevel, nameX, nameY, sum, add_sub_cancel_left]

end Nimber

end FastAlgebra
