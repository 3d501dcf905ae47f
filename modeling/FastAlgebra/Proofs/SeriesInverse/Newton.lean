import Mathlib
import FastAlgebra.Proofs.SeriesInverse
import FastAlgebra.Proofs.Residue.Inverse

/-! Newton's iteration over commutative rings. All it asks of the coefficients is that the inverses
that are found are inverses; there may be zero divisors, and any characteristic. It ends with the
one inverse of the series where the constant term has an inverse, and refuses all other series.
-/

namespace FastAlgebra

open CoeffList

variable {F : Type} [CoeffField F]

theorem constantInverse?_eq_some_iff {a : List F} {start : F}
    : constantInverse? a = some start ↔ ∃ c, a.head? = some c ∧ CoeffField.inv? c = some start :=
  Option.bind_eq_some_iff

/-- There is a constant term and it has an inverse. -/
def StartsInvertible (a : List F) : Prop :=
  ∃ c start, a.head? = some c ∧ CoeffField.inv? c = some start

theorem startsInvertible_iff (a : List F)
    : StartsInvertible a ↔ ∃ start, constantInverse? a = some start := by
  simp only [StartsInvertible, constantInverse?_eq_some_iff]
  exact exists_comm

/-- Over every commutative ring with an exact product of lists, the iteration yields the first `n`
coefficients of the inverse, which are determined by the series, if none are asked for or if the
constant term has an inverse. In every other case it refuses the series.
-/
theorem newtonInverse_exact {F : Type} [CoeffField F] [LawfulRing F] {product : ListProduct F}
    (exact : ExactProduct product)
    (inverts : ∀ x y : F, CoeffField.inv? x = some y → x * y = 1) (a : List F) (n : Nat)
    : (n = 0 ∨ StartsInvertible a →
          ∃ b, (newtonInverse product a n).Yields b
            ∧ InverseSeries a b n
            ∧ ∀ other, InverseSeries a other n → other = b)
      ∧ (¬ (n = 0 ∨ StartsInvertible a) →
          (newtonInverse product a n).Fails (.refused .notInvertible)) := by
  rw [startsInvertible_iff]
  constructor
  · intro invertible
    obtain ⟨b, yields, inverse⟩
        : ∃ b, (newtonInverse product a n).Yields b ∧ InverseSeries a b n := by
      rcases invertible with rfl | ⟨start, found⟩
      · exact ⟨[], Logged.yields_pure _, .zero a⟩
      · exact exists_newtonInverse_yields exact inverts found n
    exact ⟨b, yields, inverse, fun other found => found.unique inverse⟩
  · intro refused
    obtain ⟨positive, missing⟩ := not_or.mp refused
    have none : constantInverse? a = none :=
      Option.eq_none_iff_forall_ne_some.mpr fun start found => missing ⟨start, found⟩
    rw [newtonInverse_eq_refuse product none positive]
    exact Logged.fails_fail _

/-- Modulo fifteen the constant term two has an inverse, the constant term three has none. -/
theorem newtonInverse_exact_fifteen
    : ExactProduct (fun a b : List (Residue Modulus.fifteen) => pure (karatsuba a b))
      ∧ (∀ x y : Residue Modulus.fifteen, CoeffField.inv? x = some y → x * y = 1)
      ∧ (∃ b, (newtonInverse (fun a b : List (Residue Modulus.fifteen) => pure (karatsuba a b))
            [2, 1, 3] 5).Yields b ∧ InverseSeries [2, 1, 3] b 5)
      ∧ (newtonInverse (fun a b : List (Residue Modulus.fifteen) => pure (karatsuba a b))
            [3, 1] 4).Fails (.refused .notInvertible) := by
  have exact := exactProduct_karatsuba (R := Residue Modulus.fifteen)
  have inverts : ∀ x y : Residue Modulus.fifteen, CoeffField.inv? x = some y → x * y = 1 :=
    fun _ _ => Residue.mul_of_inv?_eq_some
  have two : StartsInvertible ([2, 1, 3] : List (Residue Modulus.fifteen)) := by
    obtain ⟨start, found, _⟩ := Residue.exists_inv?_eq_some
      (x := (2 : Residue Modulus.fifteen)) (by decide) (by decide)
    exact ⟨2, start, rfl, found⟩
  have three : ¬ StartsInvertible ([3, 1] : List (Residue Modulus.fifteen)) := by
    rintro ⟨c, start, head, found⟩
    obtain rfl : 3 = c := Option.some.inj head
    -- Three times five is zero, so an inverse of three would make five zero.
    have product : (5 : Residue Modulus.fifteen) * 3 = 0 := by decide
    have vanishes : (5 : Residue Modulus.fifteen) = 0 :=
      calc (5 : Residue Modulus.fifteen) = 5 * (3 * start) := by rw [inverts 3 start found, mul_one]
        _ = 5 * 3 * start := (mul_assoc _ _ _).symm
        _ = 0 := by rw [product, zero_mul]
    exact absurd vanishes (by decide)
  obtain ⟨b, yields, inverse, _⟩ := (newtonInverse_exact exact inverts [2, 1, 3] 5).1 (.inr two)
  refine ⟨exact, inverts, ⟨b, yields, inverse⟩, (newtonInverse_exact exact inverts [3, 1] 4).2 ?_⟩
  rw [not_or]
  exact ⟨by omega, three⟩

end FastAlgebra
