import Mathlib
import FastAlgebra.Proofs.Transform.Product
import FastAlgebra.Proofs.Transform.RoundTrip

/-! Which lengths are served. Every plan starts with tables for the length two, whatever the scalars
support, and a length that the tables cover is never compared with the limit. So plans serve the
powers of two up to the limit, and the length two in any case. For an odd modulus that is no
exception; modulo two the longest transform has the length one, and two entries are answered though
they have no transform.
-/

namespace FastAlgebra

open CoeffList

-- The operations of the scalars and those of the ring agree by the laws of `LawfulScalar`.
set_option linter.overlappingInstances false

/-- The even prime, whose units hold no root of unity but one. -/
def Modulus.two : Modulus :=
  ⟨2, by decide, by decide⟩

namespace Plan

/-- After any history of requests a transform is answered for no entries and for a power of two up
to the limit, and a product of two lists that are not empty as long as the limit allows for its
padded length. Everything else fails.
-/
structure Enforces (T : Type) [TransformScalar T] (limit : Nat) : Prop where
  forward
    : ∀ (history : List (PlanRequest T)) (a : List T),
        (∃ answer, ((afterAll history).forward a).Yields answer)
          ↔ a.length = 0 ∨ IsDyadic a.length ∧ a.length ≤ limit
  inverse
    : ∀ (history : List (PlanRequest T)) (a : List T),
        (∃ answer, ((afterAll history).inverse a).Yields answer)
          ↔ a.length = 0 ∨ IsDyadic a.length ∧ a.length ≤ limit
  convolve
    : ∀ (history : List (PlanRequest T)) (a b : List T),
        a ≠ []
        → b ≠ []
        → ((∃ answer, ((afterAll history).convolve a b).Yields answer)
          ↔ (a.length + b.length - 1).nextPowerOfTwo ≤ limit)
  own
    : ∀ a b : List T,
        a ≠ []
        → b ≠ []
        → ((∃ answer, (Transform.convolve a b).Yields answer)
          ↔ (a.length + b.length - 1).nextPowerOfTwo ≤ limit)

section Preparation

variable {T : Type} [TransformScalar T]

/-- A transform is answered if its length can be prepared. -/
theorem exists_forward_yields_iff (plan : Plan T) (a : List T)
    : (∃ answer, (plan.forward a).Yields answer)
      ↔ ∃ next, (plan.prepare a.length).Yields next := by
  constructor
  · rintro ⟨answer, answered⟩
    obtain ⟨next, prepared, _⟩ := Logged.yields_bind_iff.mp answered
    exact ⟨next, prepared⟩
  · rintro ⟨next, prepared⟩
    exact ⟨_, prepared.bind (Logged.yields_pure _)⟩

/-- A product is answered if its padded length can be prepared. -/
theorem exists_convolve_yields_iff (plan : Plan T) {a b : List T} (left : a ≠ []) (right : b ≠ [])
    : (∃ answer, (plan.convolve a b).Yields answer)
      ↔ ∃ next, (plan.prepare (a.length + b.length - 1).nextPowerOfTwo).Yields next := by
  rw [convolve, if_neg (not_isEmpty_or_isEmpty left right)]
  constructor
  · rintro ⟨answer, answered⟩
    obtain ⟨next, prepared, _⟩ := Logged.yields_bind_iff.mp answered
    exact ⟨next, prepared⟩
  · rintro ⟨next, prepared⟩
    exact ⟨_, prepared.bind (Logged.yields_pure _)⟩

/-- Lengths of more than one entry are inverted if they are transformed. -/
theorem exists_inverse_yields_iff (plan : Plan T) {a : List T} (several : ¬ a.length ≤ 1)
    : (∃ answer, (plan.inverse a).Yields answer) ↔ ∃ answer, (plan.forward a).Yields answer := by
  rw [inverse, if_neg several]
  constructor
  · rintro ⟨answer, answered⟩
    obtain ⟨found, transformed, _⟩ := Logged.yields_bind_iff.mp answered
    exact ⟨found, transformed⟩
  · rintro ⟨found, transformed⟩
    exact ⟨_, transformed.bind (Logged.yields_pure _)⟩

end Preparation

section Lawful

variable {T : Type} [TransformScalar T] [CommRing T] [LawfulScalar T]

/-- The longest length that plans serve, by the level of its tables. -/
theorem max_two_maxLength
    : max 2 (TransformScalar.maxLength T) = 2 ^ max 1 (LawfulScalar.levels T) := by
  rw [LawfulScalar.laws.maxLength_eq]
  exact ((pow_right_mono₀ (one_le_two (α := Nat))).map_max (a := 1)).symm

namespace Tables

variable {plan : Plan T} {t : Nat}

/-- A length that the tables cover is not compared with the limit. -/
theorem prepare_of_covered (tables : plan.Tables t) {n : Nat} (even : n = 0 ∨ IsDyadic n)
    (covered : n ≤ 2 ^ t)
    : (plan.prepare n).Yields plan := by
  have within : n ≤ plan.capacity := by rwa [tables.capacity_eq]
  have accepted : ¬ (n ≠ 0 ∧ ¬ IsDyadic n) := fun odd => even.elim odd.1 odd.2
  rw [prepare, if_neg accepted, reserve, if_pos within, ite_self]
  exact Logged.yields_pure plan

/-- The lengths that can be prepared, if the tables reach no further than plans do. -/
theorem exists_prepare_yields_iff (tables : plan.Tables t)
    (supported : t ≤ max 1 (LawfulScalar.levels T)) (n : Nat)
    : (∃ next, (plan.prepare n).Yields next)
      ↔ n = 0 ∨ IsDyadic n ∧ n ≤ max 2 (TransformScalar.maxLength T) := by
  constructor
  · rintro ⟨next, prepared⟩
    by_cases odd : n ≠ 0 ∧ ¬ IsDyadic n
    · rw [prepare, if_pos odd] at prepared
      exact absurd prepared (Logged.not_yields_fail _ _)
    · obtain ⟨u, grown⟩ := tables.of_prepare prepared
      have reach : n ≤ 2 ^ u := grown.covers ▸ Nat.le_max_right _ _
      have level : u ≤ max 1 (LawfulScalar.levels T) :=
        grown.supported.trans (Nat.max_le.mpr ⟨supported, Nat.le_max_right _ _⟩)
      rw [max_two_maxLength]
      by_cases none : n = 0
      · exact .inl none
      · exact .inr ⟨by_contra fun uneven => odd ⟨none, uneven⟩,
          reach.trans (Nat.pow_le_pow_right (by omega) level)⟩
  · rintro even
    by_cases covered : n ≤ 2 ^ t
    · exact ⟨plan, tables.prepare_of_covered (even.imp_right And.left) covered⟩
    · obtain ⟨dyadic, within⟩ : IsDyadic n ∧ n ≤ max 2 (TransformScalar.maxLength T) :=
        even.resolve_left fun none => covered (none ▸ Nat.zero_le _)
      have two : 2 ≤ 2 ^ t := Nat.le_self_pow (by have := tables.positive; omega) 2
      -- Past the tables only the limit of the scalars is left to refuse the length.
      rcases tables.prepare_answers n with answered | ⟨fault, refused, _⟩
      · exact answered
      · cases refused with
        | uneven uneven => exact absurd dyadic uneven
        | above _ beyond => omega

theorem exists_forward_yields_iff (tables : plan.Tables t)
    (supported : t ≤ max 1 (LawfulScalar.levels T)) (a : List T)
    : (∃ answer, (plan.forward a).Yields answer)
      ↔ a.length = 0 ∨ IsDyadic a.length ∧ a.length ≤ max 2 (TransformScalar.maxLength T) :=
  (plan.exists_forward_yields_iff a).trans (tables.exists_prepare_yields_iff supported a.length)

theorem exists_inverse_yields_iff (tables : plan.Tables t)
    (supported : t ≤ max 1 (LawfulScalar.levels T)) (a : List T)
    : (∃ answer, (plan.inverse a).Yields answer)
      ↔ a.length = 0 ∨ IsDyadic a.length ∧ a.length ≤ max 2 (TransformScalar.maxLength T) := by
  by_cases short : a.length ≤ 1
  · have answered : (plan.inverse a).Yields (plan, a) := by
      rw [inverse, if_pos short]
      exact Logged.yields_pure _
    have allowed : a.length = 0
        ∨ IsDyadic a.length ∧ a.length ≤ max 2 (TransformScalar.maxLength T) := by
      rcases Nat.le_one_iff_eq_zero_or_eq_one.mp short with none | one
      · exact .inl none
      · exact .inr ⟨one ▸ isDyadic_two_pow 0, by omega⟩
    exact ⟨fun _ => allowed, fun _ => ⟨_, answered⟩⟩
  · exact (plan.exists_inverse_yields_iff short).trans
      (tables.exists_forward_yields_iff supported a)

theorem exists_convolve_yields_iff (tables : plan.Tables t)
    (supported : t ≤ max 1 (LawfulScalar.levels T)) {a b : List T} (left : a ≠ []) (right : b ≠ [])
    : (∃ answer, (plan.convolve a b).Yields answer)
      ↔ (a.length + b.length - 1).nextPowerOfTwo ≤ max 2 (TransformScalar.maxLength T) := by
  have dyadic := isDyadic_nextPowerOfTwo (a.length + b.length - 1)
  have positive := Nat.pos_of_isPowerOfTwo
    (Nat.isPowerOfTwo_nextPowerOfTwo (a.length + b.length - 1))
  rw [plan.exists_convolve_yields_iff left right, tables.exists_prepare_yields_iff supported]
  exact ⟨fun served => (served.resolve_left positive.ne').2, fun within => .inr ⟨dyadic, within⟩⟩

end Tables

/-- The plan that a product makes for itself serves what every other plan serves. -/
theorem exists_own_convolve_yields_iff {a b : List T} (left : a ≠ []) (right : b ≠ [])
    : (∃ answer, (Transform.convolve a b).Yields answer)
      ↔ (a.length + b.length - 1).nextPowerOfTwo ≤ max 2 (TransformScalar.maxLength T) := by
  rw [Transform.convolve, if_neg (not_isEmpty_or_isEmpty left right)]
  constructor
  · rintro ⟨answer, answered⟩
    obtain ⟨plan, reserved, product⟩ := Logged.yields_bind_iff.mp answered
    obtain ⟨found, yields, _⟩ := Logged.yields_map_iff.mp product
    obtain ⟨u, grown⟩ := Tables.of_withCapacity reserved
    have level : u ≤ max 1 (LawfulScalar.levels T) := grown.supported
    exact (grown.tables.exists_convolve_yields_iff level left right).mp ⟨found, yields⟩
  · intro within
    have even : IsDyadic (max (a.length + b.length - 1).nextPowerOfTwo 2) := by
      rcases Nat.le_total (a.length + b.length - 1).nextPowerOfTwo 2 with small | large
      · rw [Nat.max_eq_right small]
        exact isDyadic_two_pow 1
      · rw [Nat.max_eq_left large]
        exact isDyadic_nextPowerOfTwo _
    have several : ¬ max (a.length + b.length - 1).nextPowerOfTwo 2 ≤ 1 := by omega
    have prepared := (tables_base (T := T).exists_prepare_yields_iff (Nat.le_max_left _ _) _).mpr
      (.inr ⟨even, Nat.max_le.mpr ⟨within, Nat.le_max_left _ _⟩⟩)
    rw [prepare, if_neg (fun odd => odd.2 even), if_neg several] at prepared
    obtain ⟨plan, reserved⟩ := prepared
    obtain ⟨u, grown⟩ := Tables.of_withCapacity reserved
    have level : u ≤ max 1 (LawfulScalar.levels T) := grown.supported
    obtain ⟨found, yields⟩ :=
      (grown.tables.exists_convolve_yields_iff level left right).mpr within
    exact ⟨_, reserved.bind (yields.map Prod.snd)⟩

/-- Plans serve what the scalars support, and the length two. -/
theorem enforces_max_two : Enforces T (max 2 (TransformScalar.maxLength T)) where
  forward history a := by
    obtain ⟨t, serves⟩ := exists_serves_afterAll history
    exact serves.tables.exists_forward_yields_iff serves.supported a
  inverse history a := by
    obtain ⟨t, serves⟩ := exists_serves_afterAll history
    exact serves.tables.exists_inverse_yields_iff serves.supported a
  convolve history a b left right := by
    obtain ⟨t, serves⟩ := exists_serves_afterAll history
    exact serves.tables.exists_convolve_yields_iff serves.supported left right
  own _ _ left right := exists_own_convolve_yields_iff left right

end Lawful

/-- For every prime the longest transform has the length of the adicity, and plans serve the powers
of two up to it and the length two. They enforce it exactly if the prime is odd.
-/
theorem enforces_maxLength_iff (m : Modulus) [prime : Fact m.toNat.Prime]
    : TransformScalar.maxLength (Residue m) = 2 ^ m.twoAdicity
      ∧ Enforces (Residue m) (max 2 (TransformScalar.maxLength (Residue m)))
      ∧ (Enforces (Residue m) (TransformScalar.maxLength (Residue m)) ↔ 2 < m.toNat) := by
  refine ⟨Residue.maxLength_eq, enforces_max_two, ?_, ?_⟩
  · intro enforced
    by_contra small
    have two : m.toNat = 2 := Nat.le_antisymm (Nat.le_of_not_lt small) prime.out.two_le
    have limit : TransformScalar.maxLength (Residue m) = 1 := by
      rw [Residue.maxLength_eq, Modulus.twoAdicity, two]
      simp [factorsOfTwo]
    have answered := (enforces_max_two.forward [] [0, (0 : Residue m)]).mpr
      (.inr ⟨isDyadic_two_pow 1, Nat.le_max_left _ _⟩)
    have bounded := (enforced.forward [] [0, (0 : Residue m)]).mp answered
    rw [limit] at bounded
    simp at bounded
  · intro odd
    have two : 2 ≤ TransformScalar.maxLength (Residue m) := by
      rw [Residue.maxLength_eq]
      exact Residue.two_le_limit odd
    exact Nat.max_eq_right two ▸ enforces_max_two

theorem enforces_maxLength_seventeen
    : Modulus.seventeen.toNat.Prime
      ∧ 2 < Modulus.seventeen.toNat
      ∧ Enforces (Residue Modulus.seventeen)
          (TransformScalar.maxLength (Residue Modulus.seventeen)) := by
  have odd : 2 < Modulus.seventeen.toNat := by decide
  exact ⟨Fact.out, odd, (enforces_maxLength_iff Modulus.seventeen).2.2.mpr odd⟩

/-- Modulo two the longest transform has one entry, but two entries are answered: the same for `[1,
0]` and `[0, 1]`, so there is no way back. A product of that length comes out as zero.
-/
theorem not_enforces_two
    : Modulus.two.toNat.Prime
      ∧ TransformScalar.maxLength (Residue Modulus.two) = 1
      ∧ (Prod.snd <$> (base : Plan (Residue Modulus.two)).forward [1, 0]).Yields [1, 1]
      ∧ (Prod.snd <$> (base : Plan (Residue Modulus.two)).forward [0, 1]).Yields [1, 1]
      ∧ (Prod.snd <$> (base : Plan (Residue Modulus.two)).convolve [1] [1, 1]).Yields [0, 0]
      ∧ (Transform.convolve [(1 : Residue Modulus.two)] [1, 1]).Yields [0, 0]
      ∧ ¬ Enforces (Residue Modulus.two) (TransformScalar.maxLength (Residue Modulus.two)) := by
  have limit : TransformScalar.maxLength (Residue Modulus.two) = 1 := by decide +kernel
  have first : (Prod.snd <$> (base : Plan (Residue Modulus.two)).forward [1, 0]).outcome
      = .ok [1, 1] := by decide +kernel
  have second : (Prod.snd <$> (base : Plan (Residue Modulus.two)).forward [0, 1]).outcome
      = .ok [1, 1] := by decide +kernel
  have product : (Prod.snd <$> (base : Plan (Residue Modulus.two)).convolve [1] [1, 1]).outcome
      = .ok [0, 0] := by decide +kernel
  have own : (Transform.convolve [(1 : Residue Modulus.two)] [1, 1]).outcome = .ok [0, 0] := by
    decide +kernel
  refine ⟨Nat.prime_two, limit, first, second, product, own, ?_⟩
  intro enforced
  obtain ⟨answer, answered, _⟩ := Logged.yields_map_iff.mp first
  have bounded := (enforced.forward [] [1, 0]).mp ⟨answer, answered⟩
  rw [limit] at bounded
  simp at bounded

end Plan

end FastAlgebra
