import Mathlib
import FastAlgebra.Poly.Expression
import FastAlgebra.Proofs.Poly.Raw

/-! Whatever is built is a polynomial of algebra in normal form. An expression stands for a
polynomial. Run on bare coefficients it yields the normal form of this polynomial, unless one of its
divisors stands for zero or a list would be too long.
-/

namespace FastAlgebra

open Polynomial

namespace PolyExpression

-----------------------------------------------------------------------------------------
-- Meaning
-----------------------------------------------------------------------------------------

section Meaning

variable {F : Type} [CoeffField F] [LawfulField F]

/-- The polynomial that an expression stands for. -/
noncomputable def denote : PolyExpression F → F[X]
  | .ofCoeffs a => CoeffList.toPolynomial a
  | .zero => 0
  | .one => 1
  | .constant c => C c
  | .x => X
  | .monomial c n => C c * X ^ n
  | .fromRoots roots => (roots.map fun root => X - C root).prod
  | .add p q => p.denote + q.denote
  | .sub p q => p.denote - q.denote
  | .neg p => -p.denote
  | .mul p q => p.denote * q.denote
  | .scale p c => p.denote * C c
  | .derivative p => Polynomial.derivative p.denote
  | .shift p n => X ^ n * p.denote
  | .truncate p n => p.denote % X ^ n
  | .reverse p length => (p.denote % X ^ length).reflect (length - 1)
  | .monic p => p.denote * C p.denote.leadingCoeff⁻¹
  | .pow p n => p.denote ^ n
  | .quotient? p d => p.denote / d.denote
  | .remainder? p d => p.denote % d.denote
  | .quotient p d => p.denote / d.denote
  | .remainder p d => p.denote % d.denote

/-- No divisor stands for zero, and no list is asked for that would be too long. The polynomial zero
is shifted by any number.
-/
def Defined : PolyExpression F → Prop
  | .ofCoeffs _ | .zero | .one | .constant _ | .x | .fromRoots _ => True
  | .monomial _ n => n ≤ longestList
  | .neg p | .scale p _ | .derivative p | .truncate p _ | .monic p | .pow p _ => p.Defined
  | .shift p n => p.Defined ∧ (p.denote = 0 ∨ n ≤ longestList)
  | .reverse p length => p.Defined ∧ length ≤ longestList
  | .add p q | .sub p q | .mul p q => p.Defined ∧ q.Defined
  | .quotient? p d | .remainder? p d | .quotient p d | .remainder p d =>
      p.Defined ∧ d.Defined ∧ d.denote ≠ 0

/-- The run yields the normal form of the polynomial. -/
def Finds (run : Kernel (RawPoly F)) (value : F[X]) : Prop :=
  ∃ p : Poly F, run.Yields p.raw ∧ p.toPolynomial = value

end Meaning

variable {F : Type} [KernelField F] [ExactKernels F]

-----------------------------------------------------------------------------------------
-- Steps
-----------------------------------------------------------------------------------------

namespace Finds

variable {run first second : Kernel (RawPoly F)} {value left right : F[X]}

/-- A constructor whose coefficients are in normal form. -/
theorem pure {p : Poly F} {bare : RawPoly F} (same : p.raw = bare) (means : p.toPolynomial = value)
    : Finds (pure bare) value :=
  ⟨p, same ▸ Logged.yields_pure _, means⟩

/-- An operation that is the same on both sides. -/
theorem map (meaning : F[X] → F[X]) {f : Poly F → Poly F} {bare : RawPoly F → RawPoly F}
    (same : ∀ p, (f p).raw = bare p.raw) (means : ∀ p, (f p).toPolynomial = meaning p.toPolynomial)
    (h : Finds run value)
    : Finds (bare <$> run) (meaning value) := by
  obtain ⟨p, yields, rfl⟩ := h
  exact ⟨f p, same p ▸ yields.map bare, means p⟩

/-- An operation that can fail may rely on what is known of the polynomial. -/
theorem bind (meaning : F[X] → F[X]) {next : RawPoly F → Kernel (RawPoly F)}
    (step : ∀ p : Poly F, p.toPolynomial = value → Finds (next p.raw) (meaning p.toPolynomial))
    (h : Finds run value)
    : Finds (run >>= next) (meaning value) := by
  obtain ⟨p, yields, rfl⟩ := h
  obtain ⟨r, rest, means⟩ := step p rfl
  exact ⟨r, yields.bind rest, means⟩

/-- An operation on two polynomials may rely on what is known of the second one. -/
theorem onBoth (meaning : F[X] → F[X] → F[X])
    {operation : RawPoly F → RawPoly F → Kernel (RawPoly F)}
    (step : ∀ p q : Poly F, q.toPolynomial = right
      → Finds (operation p.raw q.raw) (meaning p.toPolynomial q.toPolynomial))
    (hl : Finds first left) (hr : Finds second right)
    : Finds (PolyExpression.onBoth first second operation) (meaning left right) := by
  obtain ⟨p, yieldsLeft, rfl⟩ := hl
  obtain ⟨q, yieldsRight, rfl⟩ := hr
  obtain ⟨r, rest, means⟩ := step p q rfl
  exact ⟨r, yieldsLeft.bind (yieldsRight.bind rest), means⟩

theorem insist (h : Finds run value) : Finds run.insist value := by
  obtain ⟨p, yields, means⟩ := h
  exact ⟨p, yields.insist, means⟩

/-- A result that takes a length is made if the length is within the limit. -/
theorem ofLength {f : Nat → Poly F} {make : Nat → RawPoly F} (same : ∀ n, (f n).raw = make n)
    {n : Nat} (fits : n ≤ longestList)
    : Finds (Logged.ofContract (FastAlgebra.ofLength make n)) (f n).toPolynomial := by
  rw [ofLength_eq_ok make fits, ← same]
  exact ⟨f n, Logged.yields_pure _, rfl⟩

theorem shiftWithin (p : Poly F) {n : Nat} (fits : p.toPolynomial = 0 ∨ n ≤ longestList)
    : Finds (Logged.ofContract (p.raw.shiftWithin n)) (X ^ n * p.toPolynomial) := by
  rw [Poly.toPolynomial_eq_zero_iff] at fits
  rw [Poly.raw_shiftWithin, Poly.shiftWithin_eq_ok fits]
  exact ⟨p.shift n, Logged.yields_pure _, Poly.toPolynomial_shift p n⟩

theorem mul (p q : Poly F) : Finds (p.raw.mul q.raw) (p.toPolynomial * q.toPolynomial) := by
  obtain ⟨r, yields, product⟩ := Poly.exists_mul_yields p q
  exact ⟨r, Poly.mul_raw_yields yields, product⟩

theorem pow (p : Poly F) (n : Nat) : Finds (p.raw.pow n) (p.toPolynomial ^ n) := by
  obtain ⟨r, _, yields, power⟩ := Poly.exists_pow_raw_yields p n
  exact ⟨r, yields, power⟩

/-- Both parts of a division by a polynomial other than zero. -/
theorem divRem (p : Poly F) {d : Poly F} (nonzero : d.toPolynomial ≠ 0)
    : Finds (p.raw.quotient? d.raw) (p.toPolynomial / d.toPolynomial)
      ∧ Finds (p.raw.remainder? d.raw) (p.toPolynomial % d.toPolynomial) := by
  obtain ⟨q, r, yields, quotient, remainder⟩ :=
    Poly.exists_divRem_yields_div_mod p ((Poly.toPolynomial_eq_zero_iff d).not.mp nonzero)
  have divides : (p.raw.divRem d.raw).Yields (q.raw, r.raw) := by
    rw [Poly.raw_divRem]
    exact yields.map (Prod.map Poly.raw Poly.raw)
  exact ⟨⟨q, divides.map Prod.fst, quotient⟩, ⟨r, divides.map Prod.snd, remainder⟩⟩

end Finds

-----------------------------------------------------------------------------------------
-- Runs
-----------------------------------------------------------------------------------------

/-- A defined expression yields the normal form, by induction on the expression. -/
theorem finds_denote {e : PolyExpression F} (proper : e.Defined) : Finds e.run e.denote := by
  induction e with
  | ofCoeffs a => exact .pure (RawPoly.ofCoeffs_eq_raw a).symm (Poly.toPolynomial_ofCoeffs a)
  | zero => exact .pure Poly.raw_zero Poly.toPolynomial_zero
  | one => exact .pure Poly.raw_one Poly.toPolynomial_one
  | constant c => exact .pure (Poly.raw_constant c) (Poly.toPolynomial_constant c)
  | x => exact .pure Poly.raw_x Poly.toPolynomial_x
  | monomial c n =>
      rw [denote, ← Poly.toPolynomial_monomial]
      exact .ofLength (Poly.raw_monomial c) proper
  | fromRoots roots =>
      obtain ⟨p, _, yields, product⟩ := Poly.exists_fromRoots_raw_yields roots
      exact ⟨p, yields, product⟩
  | add p q ihp ihq =>
      refine .onBoth (· + ·) ?_ (ihp proper.1) (ihq proper.2)
      exact fun a b _ => .pure (Poly.raw_add a b) (Poly.toPolynomial_add a b)
  | sub p q ihp ihq =>
      refine .onBoth (· - ·) ?_ (ihp proper.1) (ihq proper.2)
      exact fun a b _ => .pure (Poly.raw_sub a b) (Poly.toPolynomial_sub a b)
  | neg p ih => exact .map (-·) Poly.raw_neg Poly.toPolynomial_neg (ih proper)
  | mul p q ihp ihq =>
      exact .onBoth (· * ·) (fun a b _ => Finds.mul a b) (ihp proper.1) (ihq proper.2)
  | scale p c ih =>
      exact .map (· * C c) (Poly.raw_scale · c) (Poly.toPolynomial_scale · c) (ih proper)
  | derivative p ih =>
      exact .map (Polynomial.derivative ·) Poly.raw_derivative Poly.toPolynomial_derivative
        (ih proper)
  | shift p n ih =>
      refine .bind (X ^ n * ·) ?_ (ih proper.1)
      exact fun base same => Finds.shiftWithin base (same ▸ proper.2)
  | truncate p n ih =>
      exact .map (· % X ^ n) (Poly.raw_truncate · n) (Poly.toPolynomial_truncate · n) (ih proper)
  | reverse p length ih =>
      refine .bind (fun value => (value % X ^ length).reflect (length - 1)) ?_ (ih proper.1)
      intro base _
      rw [← Poly.toPolynomial_reverse]
      exact .ofLength (Poly.raw_reverse base) proper.2
  | monic p ih =>
      exact .map (fun value => value * C value.leadingCoeff⁻¹) Poly.raw_monic
        Poly.toPolynomial_monic (ih proper)
  | pow p n ih => exact .bind (· ^ n) (fun base _ => Finds.pow base n) (ih proper)
  | quotient? p d ihp ihd =>
      refine .onBoth (· / ·) ?_ (ihp proper.1) (ihd proper.2.1)
      exact fun a b same => (Finds.divRem a (same ▸ proper.2.2)).1
  | remainder? p d ihp ihd =>
      refine .onBoth (· % ·) ?_ (ihp proper.1) (ihd proper.2.1)
      exact fun a b same => (Finds.divRem a (same ▸ proper.2.2)).2
  | quotient p d ihp ihd =>
      refine .onBoth (· / ·) ?_ (ihp proper.1) (ihd proper.2.1)
      exact fun a b same => (Finds.divRem a (same ▸ proper.2.2)).1.insist
  | remainder p d ihp ihd =>
      refine .onBoth (· % ·) ?_ (ihp proper.1) (ihd proper.2.1)
      exact fun a b same => (Finds.divRem a (same ▸ proper.2.2)).2.insist

omit [KernelField F] [ExactKernels F] in
theorem yields_onBoth_iff {first second : Kernel (RawPoly F)}
    {operation : RawPoly F → RawPoly F → Kernel (RawPoly F)} {r : RawPoly F}
    : (onBoth first second operation).Yields r
      ↔ ∃ p, first.Yields p ∧ ∃ q, second.Yields q ∧ (operation p q).Yields r := by
  rw [onBoth, Logged.yields_bind_iff]
  simp only [Logged.yields_bind_iff]

/-- A division that yields something has a divisor that does not stand for zero. -/
theorem divisor_ne_zero {p d : PolyExpression F} (left : p.Defined) (right : d.Defined)
    {dividend divisor : RawPoly F} {parts : RawPoly F × RawPoly F}
    (hp : p.run.Yields dividend) (hd : d.run.Yields divisor)
    (divides : (dividend.divRem divisor).Yields parts)
    : d.denote ≠ 0 := by
  obtain ⟨a, yieldsLeft, _⟩ := finds_denote left
  obtain ⟨b, yieldsRight, same⟩ := finds_denote right
  obtain rfl := hp.unique yieldsLeft
  obtain rfl := hd.unique yieldsRight
  rintro trivial
  rw [trivial, Poly.toPolynomial_eq_zero_iff] at same
  rw [same, Poly.raw_divRem, Poly.divRem_zero, Logged.map_refuse] at divides
  exact Logged.not_yields_fail _ _ divides

/-- A shift that yields something is one of zero or within the limit. -/
theorem shift_within {p : PolyExpression F} (proper : p.Defined) {base shifted : RawPoly F}
    {n : Nat} (hp : p.run.Yields base) (shifts : base.shiftWithin n = .ok shifted)
    : p.denote = 0 ∨ n ≤ longestList := by
  obtain ⟨a, yields, same⟩ := finds_denote proper
  obtain rfl := hp.unique yields
  rw [← same, Poly.toPolynomial_eq_zero_iff]
  rw [Poly.raw_shiftWithin] at shifts
  cases made : a.shiftWithin n with
  | ok r => exact Poly.within_of_shiftWithin_eq_ok made
  | error violation =>
      rw [made] at shifts
      exact nomatch shifts

/-- An expression that yields something is defined, by induction on the expression. -/
theorem defined_of_yields {e : PolyExpression F} {r : RawPoly F} (yields : e.run.Yields r)
    : e.Defined := by
  induction e generalizing r with
  | ofCoeffs | zero | one | constant | x | fromRoots => exact trivial
  | monomial c n => exact le_of_ofLength_eq_ok ((Logged.yields_ofContract_iff _ _).mp yields)
  | shift p n ih =>
      obtain ⟨_, before, last⟩ := Logged.yields_bind_iff.mp yields
      have shifts := (Logged.yields_ofContract_iff _ _).mp last
      exact ⟨ih before, shift_within (ih before) before shifts⟩
  | reverse p length ih =>
      obtain ⟨_, before, last⟩ := Logged.yields_bind_iff.mp yields
      exact ⟨ih before, le_of_ofLength_eq_ok ((Logged.yields_ofContract_iff _ _).mp last)⟩
  | neg p ih | derivative p ih | monic p ih | scale p c ih | truncate p n ih =>
      obtain ⟨_, before, _⟩ := Logged.yields_map_iff.mp yields
      exact ih before
  | pow p n ih =>
      obtain ⟨_, before, _⟩ := Logged.yields_bind_iff.mp yields
      exact ih before
  | add p q ihp ihq | sub p q ihp ihq | mul p q ihp ihq =>
      obtain ⟨_, left, _, right, _⟩ := yields_onBoth_iff.mp yields
      exact ⟨ihp left, ihq right⟩
  | quotient? p d ihp ihd | remainder? p d ihp ihd =>
      obtain ⟨_, left, _, right, last⟩ := yields_onBoth_iff.mp yields
      obtain ⟨_, divides, _⟩ := Logged.yields_map_iff.mp last
      exact ⟨ihp left, ihd right, divisor_ne_zero (ihp left) (ihd right) left right divides⟩
  | quotient p d ihp ihd | remainder p d ihp ihd =>
      obtain ⟨_, left, _, right, last⟩ := yields_onBoth_iff.mp yields
      obtain ⟨_, divides, _⟩ := Logged.yields_map_iff.mp (Logged.yields_insist_iff.mp last)
      exact ⟨ihp left, ihd right, divisor_ne_zero (ihp left) (ihd right) left right divides⟩

end PolyExpression

-----------------------------------------------------------------------------------------
-- Built polynomials
-----------------------------------------------------------------------------------------

namespace RawPoly

/-- Some expression yields these coefficients. -/
def Built {F : Type} [KernelField F] (p : RawPoly F) : Prop :=
  ∃ e : PolyExpression F, e.run.Yields p

variable {F : Type} [KernelField F] [ExactKernels F]

/-- Two polynomials are compared, computed with and evaluated as polynomials of algebra are. -/
structure FollowAlgebra (p q : RawPoly F) : Prop where
  eq_iff_coeff : p = q ↔ ∀ i, p.coeff i = q.coeff i
  eq_iff_toPolynomial : p = q ↔ p.toPolynomial = q.toPolynomial
  add : (p.add q).toPolynomial = p.toPolynomial + q.toPolynomial
  sub : (p.sub q).toPolynomial = p.toPolynomial - q.toPolynomial
  neg : p.neg.toPolynomial = -p.toPolynomial
  mul : ∃ r, (p.mul q).Yields r ∧ r.toPolynomial = p.toPolynomial * q.toPolynomial
  pow : ∀ n, ∃ r, (p.pow n).Yields r ∧ r.toPolynomial = p.toPolynomial ^ n
  eval : ∀ point, p.eval point = evalRingHom point p.toPolynomial

theorem Built.exists_raw_eq {p : RawPoly F} (built : p.Built) : ∃ q : Poly F, q.raw = p := by
  obtain ⟨e, yields⟩ := built
  have proper := PolyExpression.defined_of_yields yields
  obtain ⟨q, again, _⟩ := PolyExpression.finds_denote proper
  exact ⟨q, again.unique yields⟩

/-- Polynomials in normal form follow algebra. -/
theorem followAlgebra_raw (p q : Poly F) : FollowAlgebra p.raw q.raw where
  eq_iff_coeff := by
    rw [Poly.raw_injective.eq_iff, ← Poly.toPolynomial_injective.eq_iff, Polynomial.ext_iff]
    simp only [Poly.coeff_toPolynomial, Poly.coeff_raw]
  eq_iff_toPolynomial := by
    rw [Poly.raw_injective.eq_iff, ← Poly.toPolynomial_injective.eq_iff]
    rfl
  add := by rw [← Poly.raw_add, Poly.toPolynomial_raw, Poly.toPolynomial_add]; rfl
  sub := by rw [← Poly.raw_sub, Poly.toPolynomial_raw, Poly.toPolynomial_sub]; rfl
  neg := by rw [← Poly.raw_neg, Poly.toPolynomial_raw, Poly.toPolynomial_neg]; rfl
  mul := by
    obtain ⟨r, yields, product⟩ := PolyExpression.Finds.mul p q
    exact ⟨r.raw, yields, product⟩
  pow n := by
    obtain ⟨r, yields, power⟩ := PolyExpression.Finds.pow p n
    exact ⟨r.raw, yields, power⟩
  eval point := by rw [Poly.eval_raw, Poly.eval_eq]; rfl

/-- An expression yields a polynomial exactly if none of its divisors stands for zero and none of
its lists is too long. What it yields is in normal form and is the polynomial that the expression
stands for, so two expressions yield the same if they stand for the same. Polynomials that are built
in this way are equal if their coefficients are, and their sums, differences, negatives, products,
powers and values are those of algebra.
-/
theorem built_exact {F : Type} [KernelField F] [LibraryField F]
    : (∀ e : PolyExpression F, (∃ p, e.run.Yields p) ↔ e.Defined)
      ∧ (∀ (e : PolyExpression F) (p : RawPoly F),
          e.run.Yields p → p.Normal ∧ p.toPolynomial = e.denote)
      ∧ (∀ (e e' : PolyExpression F) (p q : RawPoly F),
          e.run.Yields p → e'.run.Yields q → (p = q ↔ e.denote = e'.denote))
      ∧ ∀ p q : RawPoly F, p.Built → q.Built → FollowAlgebra p q := by
  have means : ∀ (e : PolyExpression F) (p : RawPoly F),
      e.run.Yields p → p.Normal ∧ p.toPolynomial = e.denote := by
    intro e p yields
    obtain ⟨q, again, same⟩ :=
      PolyExpression.finds_denote (PolyExpression.defined_of_yields yields)
    obtain rfl := yields.unique again
    exact ⟨q.normal_raw, same⟩
  have follow : ∀ p q : RawPoly F, p.Built → q.Built → FollowAlgebra p q := by
    intro p q left right
    obtain ⟨a, rfl⟩ := left.exists_raw_eq
    obtain ⟨b, rfl⟩ := right.exists_raw_eq
    exact followAlgebra_raw a b
  refine ⟨?_, means, ?_, follow⟩
  · intro e
    constructor
    · rintro ⟨p, yields⟩
      exact PolyExpression.defined_of_yields yields
    · intro proper
      obtain ⟨p, yields, _⟩ := PolyExpression.finds_denote proper
      exact ⟨p.raw, yields⟩
  · intro e e' p q left right
    rw [(follow p q ⟨e, left⟩ ⟨e', right⟩).eq_iff_toPolynomial, (means e p left).2,
      (means e' q right).2]

theorem built_exact_seventeen
    : (PolyExpression.quotient (.sub (.pow .x 2) .one)
          (.add .x (.one : PolyExpression (Residue Modulus.seventeen)))).Defined
      ∧ (PolyExpression.quotient (.sub (.pow .x 2) .one)
          (.add .x (.one : PolyExpression (Residue Modulus.seventeen)))).run.Yields ⟨[16, 1]⟩
      ∧ (⟨[16, 1]⟩ : RawPoly (Residue Modulus.seventeen)).Normal := by
  obtain ⟨runs, means, same, _⟩ := built_exact (F := Residue Modulus.seventeen)
  have nonzero : (X + 1 : (Residue Modulus.seventeen)[X]) ≠ 0 := X_add_C_ne_zero 1
  have proper : (PolyExpression.quotient (.sub (.pow .x 2) .one)
      (.add .x (.one : PolyExpression (Residue Modulus.seventeen)))).Defined :=
    ⟨⟨trivial, trivial⟩, ⟨trivial, trivial⟩, nonzero⟩
  obtain ⟨p, yields⟩ := (runs _).mpr proper
  have written : (PolyExpression.ofCoeffs [16, 1]).run.Yields
      (⟨[16, 1]⟩ : RawPoly (Residue Modulus.seventeen)) := by
    rw [PolyExpression.run, Logged.yields_pure_iff]
    decide
  have divided : (X ^ 2 - 1 : (Residue Modulus.seventeen)[X]) / (X + 1)
      = CoeffList.toPolynomial [16, 1] := by
    have first : (16 : Residue Modulus.seventeen) = -1 := by decide
    have identity : (X ^ 2 - 1 : (Residue Modulus.seventeen)[X])
        = CoeffList.toPolynomial [16, 1] * (X + 1) + 0 := by
      simp only [first, CoeffList.toPolynomial, C_neg, C_1]
      ring
    have small : (0 : (Residue Modulus.seventeen)[X]).degree
        < (X + 1 : (Residue Modulus.seventeen)[X]).degree := by
      rw [degree_zero]
      exact bot_lt_iff_ne_bot.mpr (degree_ne_bot.mpr nonzero)
    exact (Poly.eq_div_and_eq_mod nonzero identity small).1.symm
  obtain rfl := (same _ _ _ _ yields written).mpr divided
  exact ⟨proper, yields, (means _ _ yields).1⟩

end RawPoly

end FastAlgebra
