import Mathlib
import FastAlgebra.Proofs.Series.Basic

/-! Sums, differences and products of power series of mixed precisions. What is known of a series is
its remainder modulo a power of the variable, and there the operations are those of a commutative
ring. So the laws hold as far as both of their sides are known, and both are known equally far.
-/

namespace FastAlgebra.Series

open Polynomial

theorem precision_sub {R : Type} [CoeffRing R] (a b : Series R)
    : (a.sub b).precision = min a.precision b.precision :=
  List.length_zipWith

section Ring

variable {R : Type} [CoeffRing R] [LawfulRing R] {a b c : Series R} {k m n : Nat}

theorem coeff_add (below : k < (a.add b).precision)
    : (a.add b).coeff k = a.coeff k + b.coeff k := by
  rw [precision_add, Nat.lt_min] at below
  exact CoeffList.coeff_zipWith (· + ·) below.1 below.2

theorem coeff_sub (below : k < (a.sub b).precision)
    : (a.sub b).coeff k = a.coeff k - b.coeff k := by
  rw [precision_sub, Nat.lt_min] at below
  exact CoeffList.coeff_zipWith (· - ·) below.1 below.2

-----------------------------------------------------------------------------------------
-- Remainders modulo powers of the variable
-----------------------------------------------------------------------------------------

/-- What the terms of degree below `n` say about a series. -/
noncomputable def remainder (n : Nat) (a : Series R) : AdjoinRoot (X ^ n : R[X]) :=
  AdjoinRoot.mk (X ^ n) a.toPolynomial

/-- Series that are known equally far are equal if they have the same remainder there. -/
theorem eq_of_remainder_eq (precision : a.precision = b.precision)
    (same : a.remainder b.precision = b.remainder b.precision)
    : a = b :=
  eq_of_X_pow_dvd precision (AdjoinRoot.mk_eq_mk.mp same)

theorem remainder_add (known : n ≤ (a.add b).precision)
    : (a.add b).remainder n = a.remainder n + b.remainder n := by
  rw [remainder, remainder, remainder, ← map_add, AdjoinRoot.mk_eq_mk]
  exact (pow_dvd_pow X known).trans (X_pow_dvd_add a b)

/-- Three series have the same sum in either grouping. -/
theorem sum_assoc (a b c : Series R) : (a.add b).add c = a.add (b.add c) := by
  have precision : ((a.add b).add c).precision = (a.add (b.add c)).precision := by
    simp only [precision_add, Nat.min_assoc]
  have left : (a.add (b.add c)).precision ≤ (a.add b).precision := by
    simp only [precision_add]
    omega
  have right : (a.add (b.add c)).precision ≤ (b.add c).precision := by
    simp only [precision_add]
    omega
  apply eq_of_remainder_eq precision
  rw [remainder_add precision.ge, remainder_add left, remainder_add (Nat.le_refl _),
    remainder_add right, add_assoc]

/-- Terms that are cut off do not count in a remainder below the cut. -/
theorem remainder_truncate (a : Series R) (h : n ≤ m)
    : (a.truncate m).remainder n = a.remainder n := by
  rw [remainder, remainder, AdjoinRoot.mk_eq_mk, ← dvd_neg, neg_sub]
  exact (pow_dvd_pow X h).trans (a.X_pow_dvd_sub_truncate m)

-----------------------------------------------------------------------------------------
-- Products
-----------------------------------------------------------------------------------------

/-- The series `c` is the product, known as far as both operands are. -/
structure IsProduct (a b c : Series R) : Prop where
  precision : c.precision = min a.precision b.precision
  close : X ^ c.precision ∣ c.toPolynomial - a.toPolynomial * b.toPolynomial

namespace IsProduct

variable {d e f : Series R}

theorem of_remainder (precision : c.precision = min a.precision b.precision)
    (same : c.remainder c.precision = a.remainder c.precision * b.remainder c.precision)
    : IsProduct a b c := by
  rw [remainder, remainder, remainder, ← map_mul, AdjoinRoot.mk_eq_mk] at same
  exact ⟨precision, same⟩

theorem remainder_eq (product : IsProduct a b c) (known : n ≤ c.precision)
    : c.remainder n = a.remainder n * b.remainder n := by
  rw [remainder, remainder, remainder, ← map_mul, AdjoinRoot.mk_eq_mk]
  exact (pow_dvd_pow X known).trans product.close

/-- A term of the product is the sum of the products of terms whose degrees add up to its own. -/
theorem coeff_eq (product : IsProduct a b c) (below : k < c.precision)
    : c.coeff k = ∑ i ∈ Finset.range (k + 1), a.coeff i * b.coeff (k - i) := by
  rw [coeff_eq_of_X_pow_dvd product.close below, Polynomial.coeff_mul,
    Finset.Nat.sum_antidiagonal_eq_sum_range_succ_mk]
  simp only [coeff_toPolynomial]

/-- There is one product. -/
theorem unique (product : IsProduct a b c) (other : IsProduct a b d) : c = d := by
  have precision : c.precision = d.precision := product.precision.trans other.precision.symm
  apply eq_of_remainder_eq precision
  rw [product.remainder_eq precision.ge, other.remainder_eq (Nat.le_refl _)]

theorem symm (product : IsProduct a b c) : IsProduct b a c := by
  refine ⟨?_, ?_⟩
  · rw [product.precision, Nat.min_comm]
  · rw [mul_comm]
    exact product.close

/-- Three series have the same product in either grouping. -/
theorem assoc (left : IsProduct a b d) (leftWhole : IsProduct d c e) (right : IsProduct b c f)
    : IsProduct a f e := by
  have precision : e.precision = min a.precision f.precision := by
    rw [leftWhole.precision, left.precision, right.precision, Nat.min_assoc]
  have leftKnown : e.precision ≤ d.precision := leftWhole.precision ▸ Nat.min_le_left _ _
  have rightKnown : e.precision ≤ f.precision := precision ▸ Nat.min_le_right _ _
  apply of_remainder precision
  rw [leftWhole.remainder_eq (Nat.le_refl _), left.remainder_eq leftKnown,
    right.remainder_eq rightKnown, mul_assoc]

/-- The product with a sum is the sum of the products. -/
theorem add (first : IsProduct a b d) (second : IsProduct a c e)
    : IsProduct a (b.add c) (d.add e) := by
  have precision : (d.add e).precision = min a.precision (b.add c).precision := by
    rw [precision_add, precision_add, first.precision, second.precision]
    omega
  have sumKnown : (d.add e).precision ≤ (b.add c).precision := precision ▸ Nat.min_le_right _ _
  have firstKnown : (d.add e).precision ≤ d.precision := precision_add d e ▸ Nat.min_le_left _ _
  have secondKnown : (d.add e).precision ≤ e.precision := precision_add d e ▸ Nat.min_le_right _ _
  apply of_remainder precision
  rw [remainder_add (Nat.le_refl _), first.remainder_eq firstKnown,
    second.remainder_eq secondKnown, remainder_add sumKnown, mul_add]

/-- Cutting the operands cuts the product. -/
theorem truncate (product : IsProduct a b c) (m : Nat)
    : IsProduct (a.truncate m) (b.truncate m) (c.truncate m) := by
  have precision : (c.truncate m).precision
      = min (a.truncate m).precision (b.truncate m).precision := by
    rw [precision_truncate, precision_truncate, precision_truncate, product.precision]
    omega
  have cut : (c.truncate m).precision ≤ m := precision_truncate c m ▸ Nat.min_le_left _ _
  have known : (c.truncate m).precision ≤ c.precision :=
    precision_truncate c m ▸ Nat.min_le_right _ _
  apply of_remainder precision
  rw [remainder_truncate c cut, remainder_truncate a cut, remainder_truncate b cut,
    product.remainder_eq known]

end IsProduct

end Ring

-----------------------------------------------------------------------------------------
-- The laws
-----------------------------------------------------------------------------------------

/-- The operations are those of a commutative ring on all that is known of their operands. An
operation knows as many terms as the operand of lesser precision, and no later term of either
operand counts. A cut keeps the terms before it, and it does not matter whether the operands or the
result are cut.
-/
structure TruncatedArithmetic {R : Type} [CoeffRing R] [LawfulRing R]
    (product : Series R → Series R → Series R)
    : Prop where
  precision_sum : ∀ a b : Series R, (a.add b).precision = min a.precision b.precision
  coeff_sum
    : ∀ a b : Series R, ∀ k < (a.add b).precision, (a.add b).coeff k = a.coeff k + b.coeff k
  precision_difference : ∀ a b : Series R, (a.sub b).precision = min a.precision b.precision
  coeff_difference
    : ∀ a b : Series R, ∀ k < (a.sub b).precision, (a.sub b).coeff k = a.coeff k - b.coeff k
  precision_product : ∀ a b, (product a b).precision = min a.precision b.precision
  coeff_product
    : ∀ a b, ∀ k < (product a b).precision,
        (product a b).coeff k = ∑ i ∈ Finset.range (k + 1), a.coeff i * b.coeff (k - i)
  sum_comm : ∀ a b : Series R, a.add b = b.add a
  sum_assoc : ∀ a b c : Series R, (a.add b).add c = a.add (b.add c)
  product_comm : ∀ a b, product a b = product b a
  product_assoc : ∀ a b c, product (product a b) c = product a (product b c)
  product_sum : ∀ a b c, product a (b.add c) = (product a b).add (product a c)
  sum_product : ∀ a b c, product (a.add b) c = (product a c).add (product b c)
  precision_truncate : ∀ (a : Series R) m, (a.truncate m).precision = min m a.precision
  coeff_truncate
    : ∀ (a : Series R) m, ∀ k < (a.truncate m).precision, (a.truncate m).coeff k = a.coeff k
  truncate_sum : ∀ (a b : Series R) m, (a.truncate m).add (b.truncate m) = (a.add b).truncate m
  truncate_difference
    : ∀ (a b : Series R) m, (a.truncate m).sub (b.truncate m) = (a.sub b).truncate m
  truncate_product : ∀ a b m, product (a.truncate m) (b.truncate m) = (product a b).truncate m

/-- Whatever finds the products satisfies the laws. -/
theorem truncatedArithmetic {R : Type} [CoeffRing R] [LawfulRing R]
    {product : Series R → Series R → Series R} (exact : ∀ a b, IsProduct a b (product a b))
    : TruncatedArithmetic product where
  precision_sum := precision_add
  coeff_sum _ _ _ := coeff_add
  precision_difference := precision_sub
  coeff_difference _ _ _ := coeff_sub
  precision_product a b := (exact a b).precision
  coeff_product a b _ := (exact a b).coeff_eq
  sum_comm _ _ := congrArg mk (List.zipWith_comm_of_comm add_comm)
  sum_assoc := sum_assoc
  product_comm a b := (exact a b).symm.unique (exact b a)
  product_assoc a b c := by
    have grouped := (exact a b).assoc (exact (product a b) c) (exact b c)
    exact grouped.unique (exact a (product b c))
  product_sum a b c := (exact a (b.add c)).unique ((exact a b).add (exact a c))
  sum_product a b c :=
    (exact (a.add b) c).symm.unique ((exact a c).symm.add (exact b c).symm)
  precision_truncate := precision_truncate
  coeff_truncate a m k below := by
    rw [precision_truncate, Nat.lt_min] at below
    rw [coeff_truncate, if_pos below.1]
  truncate_sum _ _ _ := congrArg mk List.take_zipWith.symm
  truncate_difference _ _ _ := congrArg mk List.take_zipWith.symm
  truncate_product a b m := (exact _ _).unique ((exact a b).truncate m)

/-- Over every field of the library the kernels yield a product for any two series, of whatever
precisions, and it is that of a commutative ring, together with the sums and the differences.
-/
theorem arithmetic_exact {F : Type} [KernelField F] [LibraryField F]
    : ∃ product : Series F → Series F → Series F,
        (∀ a b : Series F, (a.mul b).Yields (product a b)) ∧ TruncatedArithmetic product := by
  choose product yields precision close using exists_mul_yields (F := F)
  exact ⟨product, yields, truncatedArithmetic fun a b => ⟨precision a b, close a b⟩⟩

theorem arithmetic_exact_seventeen
    : ∃ product : Series (Residue Modulus.seventeen) → Series (Residue Modulus.seventeen)
          → Series (Residue Modulus.seventeen),
        product ⟨[1, 2, 3, 4]⟩ ⟨[5, 6]⟩ = ⟨[5, 16]⟩
          ∧ product ⟨[5, 6]⟩ ⟨[1, 2, 3, 4]⟩ = ⟨[5, 16]⟩
          ∧ product ⟨[]⟩ ⟨[5, 6]⟩ = ⟨[]⟩
          ∧ product ⟨[1]⟩ ⟨[5]⟩ = ⟨[5]⟩
          ∧ TruncatedArithmetic product := by
  obtain ⟨product, yields, arithmetic⟩ := arithmetic_exact (F := Residue Modulus.seventeen)
  have found : (Series.mul ⟨[1, 2, 3, 4]⟩
      (Series.mk ([5, 6] : List (Residue Modulus.seventeen)))).Yields ⟨[5, 16]⟩ := by
    rw [Logged.Yields]
    decide +kernel
  have none : (Series.mul ⟨[]⟩
      (Series.mk ([5, 6] : List (Residue Modulus.seventeen)))).Yields ⟨[]⟩ := by
    rw [Logged.Yields]
    decide +kernel
  have same := (yields _ _).unique found
  -- Both operands are cut behind their first term.
  have cut := arithmetic.truncate_product ⟨[1, 2, 3, 4]⟩ ⟨[5, 6]⟩ 1
  rw [same] at cut
  exact ⟨product, same, (arithmetic.product_comm _ _).trans same, (yields _ _).unique none, cut,
    arithmetic⟩

end FastAlgebra.Series
