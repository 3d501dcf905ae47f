import Mathlib
import FastAlgebra.Proofs.Transform.Correctness

/-! The transform and its inverse undo each other, from both sides. Neither the plan that
transformed a list nor the plan that transforms it back leaves a trace in the answer, so the two
may be different plans with different pasts.
-/

namespace FastAlgebra

open CoeffList

-- The operations of the scalars and those of the ring agree by the laws of `LawfulScalar`.
set_option linter.overlappingInstances false

namespace Plan

variable {T : Type} [TransformScalar T]

/-- There is nothing to do for an empty list. -/
theorem forward_nil (plan : Plan T) : (plan.forward []).Yields (plan, []) := by
  have empty : plan.transform [] = [] := List.length_eq_zero_iff.mp (plan.length_transform [])
  rw [forward, List.length_nil, prepare, if_neg (by simp), if_pos (by omega)]
  exact (Logged.yields_pure plan).bind ((Logged.yields_pure_iff _ _).mpr (by rw [empty]))

theorem inverse_nil (plan : Plan T) : (plan.inverse []).Yields (plan, []) := by
  rw [inverse, if_pos (by simp)]
  exact Logged.yields_pure _

variable [CommRing T] [LawfulScalar T]

/-- What the inverse transform of the length `2 ^ s` makes of a list. -/
abbrev unspectrumOf (s : Nat) (a : List T) : List T :=
  unspectrum (LawfulScalar.root s) (2 ^ s) (TransformScalar.inverseLength (2 ^ s)) a

theorem unspectrumOf_spectrum {a : List T} {s : Nat} (length : a.length = 2 ^ s)
    (supported : s ≤ LawfulScalar.levels T)
    : unspectrumOf s (spectrum (LawfulScalar.root s) (2 ^ s) a) = a :=
  unspectrum_spectrum LawfulScalar.laws.roots supported
    (LawfulScalar.laws.inverseLength_unscales s supported) length

theorem spectrum_unspectrumOf {a : List T} {s : Nat} (length : a.length = 2 ^ s)
    (supported : s ≤ LawfulScalar.levels T)
    : spectrum (LawfulScalar.root s) (2 ^ s) (unspectrumOf s a) = a :=
  spectrum_unspectrum LawfulScalar.laws.roots supported
    (LawfulScalar.laws.inverseLength_unscales s supported) length

/-- The inverse transform of any dyadic length that the scalars support is computed exactly. A
single entry is left as it is, which is its inverse transform.
-/
theorem Tables.exists_inverse_yields {plan : Plan T} {t : Nat} (tables : plan.Tables t)
    {a : List T} {s : Nat} (length : a.length = 2 ^ s) (supported : s ≤ LawfulScalar.levels T)
    : ∃ next, (plan.inverse a).Yields (next, unspectrumOf s a) := by
  rcases Nat.eq_zero_or_pos s with rfl | positive
  · have kept : unspectrumOf 0 a = a := by
      have single := spectrum_of_length_one (LawfulScalar.root (T := T) 0) length
      have undone := unspectrumOf_spectrum length supported
      rwa [pow_zero, single] at undone
    refine ⟨plan, ?_⟩
    rw [kept, inverse, if_pos (by rw [length, pow_zero])]
    exact Logged.yields_pure _
  · have several : ¬ a.length ≤ 1 := by
      rw [length, Nat.not_le]
      exact Nat.one_lt_two_pow (by omega)
    obtain ⟨next, image⟩ := tables.exists_forward_yields length supported
    refine ⟨next, ?_⟩
    rw [inverse, if_neg several, length]
    refine image.bind ?_
    rw [Logged.yields_pure_iff, LawfulScalar.laws.mul_eq]
    rfl

end Plan

namespace Transform

variable {T : Type} [TransformScalar T] [CommRing T] [LawfulScalar T]

theorem forward_yields {a : List T} {s : Nat} (length : a.length = 2 ^ s)
    (supported : s ≤ LawfulScalar.levels T)
    : (forward a).Yields (spectrum (LawfulScalar.root s) (2 ^ s) a) := by
  obtain ⟨_, plan, _, reserved, tables⟩ := Plan.exists_withCapacity_yields supported
  obtain ⟨next, image⟩ := tables.exists_forward_yields length supported
  rw [forward, length]
  exact reserved.bind (image.map Prod.snd)

theorem inverse_yields {a : List T} {s : Nat} (length : a.length = 2 ^ s)
    (supported : s ≤ LawfulScalar.levels T)
    : (inverse a).Yields (Plan.unspectrumOf s a) := by
  obtain ⟨_, plan, _, reserved, tables⟩ := Plan.exists_withCapacity_yields supported
  obtain ⟨next, image⟩ := tables.exists_inverse_yields length supported
  rw [inverse, length]
  exact reserved.bind (image.map Prod.snd)

end Transform

namespace Plan

variable {T : Type} [TransformScalar T]

/-- The answer `b` to the transform of `a` is the same for every plan, whatever was asked of it
before, and for the transform with a plan of its own.
-/
structure AlwaysForward (a b : List T) : Prop where
  kept : ∀ history : List (PlanRequest T), ∃ next, ((afterAll history).forward a).Yields (next, b)
  own : (Transform.forward a).Yields b

/-- The answer `b` to the inverse transform of `a` is the same for every plan, whatever was asked
of it before, and for the inverse transform with a plan of its own.
-/
structure AlwaysInverse (a b : List T) : Prop where
  kept : ∀ history : List (PlanRequest T), ∃ next, ((afterAll history).inverse a).Yields (next, b)
  own : (Transform.inverse a).Yields b

theorem alwaysForward_nil : AlwaysForward ([] : List T) [] := by
  refine ⟨fun history => ⟨_, forward_nil _⟩, ?_⟩
  exact (Logged.yields_pure base).bind ((forward_nil base).map Prod.snd)

theorem alwaysInverse_nil : AlwaysInverse ([] : List T) [] := by
  refine ⟨fun history => ⟨_, inverse_nil _⟩, ?_⟩
  exact (Logged.yields_pure base).bind ((inverse_nil base).map Prod.snd)

variable [CommRing T] [LawfulScalar T] {a : List T} {s : Nat}

theorem alwaysForward (length : a.length = 2 ^ s) (supported : s ≤ LawfulScalar.levels T)
    : AlwaysForward a (spectrum (LawfulScalar.root s) (2 ^ s) a) := by
  refine ⟨?_, Transform.forward_yields length supported⟩
  intro history
  obtain ⟨t, tables⟩ := exists_tables_afterAll history
  exact tables.exists_forward_yields length supported

theorem alwaysInverse (length : a.length = 2 ^ s) (supported : s ≤ LawfulScalar.levels T)
    : AlwaysInverse a (unspectrumOf s a) := by
  refine ⟨?_, Transform.inverse_yields length supported⟩
  intro history
  obtain ⟨t, tables⟩ := exists_tables_afterAll history
  exact tables.exists_inverse_yields length supported

/-- For every length that is zero or a supported power of two, the inverse transform by any plan
undoes the transform by any plan, and the other way round; the transforms with plans of their own
give the same answers.
-/
theorem inverse_forward_exact {m : Modulus} [Fact m.toNat.Prime] {a : List (Residue m)}
    (supported : a.length = 0 ∨ ∃ s ≤ m.twoAdicity, a.length = 2 ^ s)
    : (∃ b, AlwaysForward a b ∧ AlwaysInverse b a)
      ∧ (∃ c, AlwaysInverse a c ∧ AlwaysForward c a) := by
  rcases supported with empty | ⟨s, within, length⟩
  · obtain rfl := List.length_eq_zero_iff.mp empty
    exact ⟨⟨[], alwaysForward_nil, alwaysInverse_nil⟩, ⟨[], alwaysInverse_nil, alwaysForward_nil⟩⟩
  · refine ⟨⟨_, alwaysForward length within, ?_⟩, ⟨_, alwaysInverse length within, ?_⟩⟩
    · have undone := alwaysInverse (length_spectrum (LawfulScalar.root s) (2 ^ s) a) within
      rwa [unspectrumOf_spectrum length within] at undone
    · have undone := alwaysForward (length_unspectrum (LawfulScalar.root s) (2 ^ s)
        (TransformScalar.inverseLength (2 ^ s)) a) within
      rwa [spectrum_unspectrumOf length within] at undone

theorem inverse_forward_exact_seventeen
    : (∃ s ≤ Modulus.seventeen.twoAdicity,
          ([5, 6, 7, 8] : List (Residue Modulus.seventeen)).length = 2 ^ s)
      ∧ ∃ b : List (Residue Modulus.seventeen),
          AlwaysForward [5, 6, 7, 8] b ∧ AlwaysInverse b [5, 6, 7, 8] := by
  have supported : 2 ≤ Modulus.seventeen.twoAdicity := by
    rw [Modulus.twoAdicity_seventeen]
    omega
  have dyadic : ∃ s ≤ Modulus.seventeen.twoAdicity,
      ([5, 6, 7, 8] : List (Residue Modulus.seventeen)).length = 2 ^ s := ⟨2, supported, rfl⟩
  obtain ⟨undone, _⟩ := inverse_forward_exact (.inr dyadic)
  exact ⟨dyadic, undone⟩

end Plan

end FastAlgebra
