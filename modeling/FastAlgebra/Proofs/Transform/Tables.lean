import Mathlib
import FastAlgebra.Transform.Request
import FastAlgebra.Proofs.Logged
import FastAlgebra.Proofs.Transform.Scalar

/-! What the tables of a plan hold, whatever was asked of the plan before. All that a request can
do to a plan is to reserve a length, and a reservation keeps the tables, replaces them by larger
ones of the same form, or fails. So the tables reach as far as the longest length that was served.
-/

namespace FastAlgebra

-- The operations of the scalars and those of the ring agree by the laws of `LawfulScalar`.
set_option linter.overlappingInstances false

/-- The tables cover the length `2 ^ t`: reversed indices of `t` digits, and the powers of the
roots of all orders up to the length.
-/
structure Plan.Tables {T : Type} [TransformScalar T] [CommRing T] [LawfulScalar T]
    (plan : Plan T) (t : Nat)
    : Prop where
  positive : 0 < t
  size : plan.reversal.size = 2 ^ t
  reversed : ∀ i < 2 ^ t, plan.reversal[i]? = some (reverseDigits t i)
  roots : RootTable (LawfulScalar.root (T := T)) plan.roots t

/-- Why a length is refused that the tables do not cover: there is no transform of that length, or
the scalars do not support it.
-/
inductive RefusedLength (T : Type) [TransformScalar T] (n : Nat) : Fault → Prop where
  | uneven : ¬ IsDyadic n → RefusedLength T n (.violated (.lengthNotPowerOfTwo n))
  | above
    : IsDyadic n
      → TransformScalar.maxLength T < n
      → RefusedLength T n (.violated (.lengthAboveMaximum n (TransformScalar.maxLength T)))

/-- The run ends with a value, or all that it does is to refuse the length. -/
def AnswersOrRefuses (T : Type) [TransformScalar T] {α : Type} (n : Nat) (run : Kernel α) : Prop :=
  (∃ value, run.Yields value) ∨ ∃ fault, RefusedLength T n fault ∧ run = Logged.fail fault

/-- Nothing can be refused after the first run. -/
theorem AnswersOrRefuses.bind {T α β : Type} [TransformScalar T] {n : Nat} {run : Kernel α}
    (h : AnswersOrRefuses T n run) {rest : α → Kernel β}
    (ends : ∀ value, ∃ last, (rest value).Yields last)
    : AnswersOrRefuses T n (run >>= rest) := by
  rcases h with ⟨value, answered⟩ | ⟨fault, refused, rfl⟩
  · obtain ⟨last, ended⟩ := ends value
    exact .inl ⟨last, answered.bind ended⟩
  · exact .inr ⟨fault, refused, rfl⟩

theorem AnswersOrRefuses.map {T α β : Type} [TransformScalar T] {n : Nat} {run : Kernel α}
    (h : AnswersOrRefuses T n run) (f : α → β)
    : AnswersOrRefuses T n (f <$> run) :=
  h.bind fun _ => ⟨_, Logged.yields_pure _⟩

namespace Plan

variable {T : Type} [TransformScalar T] [CommRing T] [LawfulScalar T]

/-- The tables have been brought from the level `t` to the level `u` in order to cover the length
`n`.
-/
structure GrownFrom (next : Plan T) (t n u : Nat) : Prop where
  tables : next.Tables u
  covers : 2 ^ u = max (2 ^ t) n
  supported : u ≤ max t (LawfulScalar.levels T)

/-- The plan has served the lengths and no others: its tables reach as far as the longest one. -/
structure Serves (plan : Plan T) (lengths : List Nat) (t : Nat) : Prop where
  tables : plan.Tables t
  covers : 2 ^ t = lengths.foldr max 2
  supported : t ≤ max 1 (LawfulScalar.levels T)

theorem GrownFrom.level_le {next : Plan T} {s t u : Nat} (grown : next.GrownFrom t (2 ^ s) u)
    : s ≤ u := by
  rw [← Nat.pow_le_pow_iff_right Nat.one_lt_two, grown.covers]
  exact Nat.le_max_right _ _

/-- The tables that every plan starts with hold only ones. -/
theorem tables_base : (base : Plan T).Tables 1 where
  positive := by omega
  size := rfl
  reversed i below := by
    have binary : i = 0 ∨ i = 1 := by omega
    rcases binary with rfl | rfl
    · rfl
    · rfl
  roots := by
    refine ⟨rfl, ?_⟩
    intro s first j only
    obtain rfl : s = 0 := by omega
    obtain rfl : j = 0 := by simpa using only
    rw [base, LawfulScalar.laws.one_eq, pow_zero, pow_zero]
    rfl

namespace Tables

variable {plan : Plan T} {t : Nat}

theorem capacity_eq (tables : plan.Tables t) : plan.capacity = 2 ^ t :=
  tables.roots.size

/-- Nothing grows for a length that is covered. -/
theorem grownFrom (tables : plan.Tables t) {n : Nat} (within : n ≤ 2 ^ t)
    : plan.GrownFrom t n t :=
  ⟨tables, (Nat.max_eq_left within).symm, Nat.le_max_left _ _⟩

/-- Growing the table of roots level by level reaches the level that was asked for. -/
theorem exists_roots {table : Array T} {u : Nat} (positive : 0 < t)
    (covered : RootTable LawfulScalar.root table t) (larger : t ≤ u)
    (supported : u ≤ LawfulScalar.levels T)
    : ∃ next,
        (doublings (2 ^ t) (2 ^ u)).foldlM TransformScalar.extendRoots table = .ok next
          ∧ RootTable LawfulScalar.root next u := by
  obtain ⟨last, next, reached, grown, s, rfl, _, within, full⟩ :=
    foldlM_doublings (f := TransformScalar.extendRoots) (n := 2 ^ u)
      (motive := fun k grown =>
        ∃ s, k = 2 ^ s ∧ 0 < s ∧ s ≤ u ∧ RootTable LawfulScalar.root grown s)
      (Nat.two_pow_pos t) ⟨t, rfl, positive, larger, covered⟩
      (by
        rintro _ grown _ below ⟨s, rfl, above, _, full⟩
        have smaller : s < u := (Nat.pow_lt_pow_iff_right (by omega)).mp below
        obtain ⟨next, extended, fuller⟩ :=
          LawfulScalar.laws.exists_extendRoots_eq grown s above (by omega) full
        exact ⟨next, extended, s + 1, (pow_succ' 2 s).symm, by omega, by omega, fuller⟩)
  have top : u ≤ s := (Nat.pow_le_pow_iff_right (by omega)).mp reached
  obtain rfl : s = u := by omega
  exact ⟨next, grown, full⟩

/-- All that a reservation can do: keep tables that are long enough, grow them to a supported
power of two, or fail on any other length.
-/
theorem reserve_cases (tables : plan.Tables t) (n : Nat)
    : (n ≤ 2 ^ t ∧ (plan.reserve n).Yields plan)
      ∨ (∃ u next, n = 2 ^ u ∧ t < u ∧ u ≤ LawfulScalar.levels T
          ∧ (plan.reserve n).Yields next ∧ next.Tables u)
      ∨ (2 ^ t < n ∧ ∃ fault, RefusedLength T n fault ∧ plan.reserve n = Logged.fail fault) := by
  simp only [reserve, tables.capacity_eq]
  split
  · rename_i within
    exact .inl ⟨within, Logged.yields_pure plan⟩
  · rename_i longer
    split
    · rename_i uneven
      exact .inr (.inr ⟨by omega, _, .uneven uneven, rfl⟩)
    · rename_i dyadic
      split
      · rename_i unsupported
        exact .inr (.inr ⟨by omega, _, .above (not_not.mp dyadic) unsupported, rfl⟩)
      · rename_i supported
        obtain ⟨u, rfl⟩ := (isDyadic_iff n).mp (not_not.mp dyadic)
        rw [LawfulScalar.laws.maxLength_eq, Nat.not_lt, Nat.pow_le_pow_iff_right (by omega)]
          at supported
        rw [Nat.not_le, Nat.pow_lt_pow_iff_right (by omega)] at longer
        obtain ⟨roots, grown, full⟩ :=
          exists_roots tables.positive tables.roots longer.le supported
        refine .inr (.inl ⟨u, ⟨bitReversal (2 ^ u), roots⟩, rfl, longer, supported, ?_, ?_⟩)
        · exact (Logged.yields_emit _).bind
            (((Logged.yields_ofContract_iff _ _).mpr grown).bind (Logged.yields_pure _))
        · exact ⟨by omega, size_bitReversal u, fun i below => getElem?_bitReversal below, full⟩

/-- A supported power of two can be reserved. -/
theorem exists_reserve_yields (tables : plan.Tables t) {s : Nat}
    (supported : s ≤ LawfulScalar.levels T)
    : ∃ u next, s ≤ u ∧ (plan.reserve (2 ^ s)).Yields next ∧ next.Tables u := by
  rcases tables.reserve_cases (2 ^ s) with
    ⟨within, kept⟩ | ⟨u, next, same, _, _, grown, larger⟩ | ⟨_, _, refused, _⟩
  · exact ⟨t, plan, (Nat.pow_le_pow_iff_right (by omega)).mp within, kept, tables⟩
  · exact ⟨u, next, ((Nat.pow_right_inj (by omega)).mp same).le, grown, larger⟩
  · cases refused with
    | uneven uneven => exact absurd (isDyadic_two_pow s) uneven
    | above _ unsupported =>
        rw [LawfulScalar.laws.maxLength_eq, Nat.pow_lt_pow_iff_right (by omega)] at unsupported
        omega

/-- A reservation that succeeds brings the tables to the length, by cases on what it can do. -/
theorem of_reserve (tables : plan.Tables t) {n : Nat} {next : Plan T}
    (reserved : (plan.reserve n).Yields next)
    : ∃ u, next.GrownFrom t n u := by
  rcases tables.reserve_cases n with
    ⟨within, kept⟩ | ⟨u, _, rfl, longer, supported, grown, larger⟩ | ⟨_, _, _, fails⟩
  · exact ⟨t, reserved.unique kept ▸ tables.grownFrom within⟩
  · refine ⟨u, reserved.unique grown ▸ larger, ?_, supported.trans (Nat.le_max_right _ _)⟩
    exact (Nat.max_eq_right (Nat.pow_le_pow_right (by omega) longer.le)).symm
  · rw [fails] at reserved
    exact absurd reserved (Logged.not_yields_fail _ _)

theorem of_withCapacity {n : Nat} {next : Plan T} (reserved : (withCapacity n).Yields next)
    : ∃ u, next.GrownFrom 1 n u :=
  tables_base.of_reserve reserved

theorem of_prepare (tables : plan.Tables t) {n : Nat} {next : Plan T}
    (prepared : (plan.prepare n).Yields next)
    : ∃ u, next.GrownFrom t n u := by
  unfold prepare at prepared
  split at prepared
  · exact absurd prepared (Logged.not_yields_fail _ _)
  · split at prepared
    · rename_i trivial
      rw [Logged.yields_pure_iff] at prepared
      exact ⟨t, prepared ▸ tables.grownFrom (trivial.trans (Nat.two_pow_pos t))⟩
    · exact tables.of_reserve prepared

theorem of_forward (tables : plan.Tables t) {a b : List T} {next : Plan T}
    (answered : (plan.forward a).Yields (next, b))
    : ∃ u, next.GrownFrom t a.length u := by
  obtain ⟨prepared, reserved, rest⟩ := Logged.yields_bind_iff.mp answered
  rw [Logged.yields_pure_iff, Prod.mk.injEq] at rest
  exact tables.of_prepare (rest.1 ▸ reserved)

theorem of_inverse (tables : plan.Tables t) {a b : List T} {next : Plan T}
    (answered : (plan.inverse a).Yields (next, b))
    : ∃ u, next.GrownFrom t a.length u := by
  unfold inverse at answered
  split at answered
  · rename_i trivial
    rw [Logged.yields_pure_iff, Prod.mk.injEq] at answered
    exact ⟨t, answered.1 ▸ tables.grownFrom (trivial.trans (Nat.two_pow_pos t))⟩
  · obtain ⟨⟨prepared, image⟩, transformed, rest⟩ := Logged.yields_bind_iff.mp answered
    rw [Logged.yields_pure_iff, Prod.mk.injEq] at rest
    exact tables.of_forward (rest.1 ▸ transformed)

theorem of_convolve (tables : plan.Tables t) {a b c : List T} {next : Plan T}
    (answered : (plan.convolve a b).Yields (next, c))
    : ∃ u, next.GrownFrom t (PlanRequest.convolve a b).length u := by
  unfold convolve at answered
  simp only [PlanRequest.length]
  split at answered
  · rename_i empty
    rw [Logged.yields_pure_iff, Prod.mk.injEq] at answered
    rw [if_pos empty]
    exact ⟨t, answered.1 ▸ tables.grownFrom (Nat.zero_le _)⟩
  · rename_i nonempty
    obtain ⟨prepared, reserved, rest⟩ := Logged.yields_bind_iff.mp answered
    rw [Logged.yields_pure_iff, Prod.mk.injEq] at rest
    rw [if_neg nonempty]
    exact tables.of_prepare (rest.1 ▸ reserved)

/-- A request that succeeds brings the tables to its length, by cases on the request. -/
theorem of_perform (tables : plan.Tables t) {request : PlanRequest T} {next : Plan T}
    {answer : Option (List T)} (performed : (plan.perform request).Yields (next, answer))
    : ∃ u, next.GrownFrom (if request.startsAnew then 1 else t) request.length u := by
  cases request with
  | fresh =>
      simp only [perform, Logged.yields_pure_iff, Prod.mk.injEq] at performed
      exact ⟨1, performed.1 ▸ tables_base.grownFrom (Nat.zero_le _)⟩
  | capacity =>
      simp only [perform, Logged.yields_pure_iff, Prod.mk.injEq] at performed
      exact ⟨t, performed.1 ▸ tables.grownFrom (Nat.zero_le _)⟩
  | withCapacity n =>
      obtain ⟨found, reserved, same⟩ := Logged.yields_map_iff.mp performed
      obtain ⟨rfl, _⟩ := Prod.mk.inj same
      exact of_withCapacity reserved
  | reserve n =>
      obtain ⟨found, reserved, same⟩ := Logged.yields_map_iff.mp performed
      obtain ⟨rfl, _⟩ := Prod.mk.inj same
      exact tables.of_reserve reserved
  | forward a =>
      obtain ⟨⟨found, b⟩, answered, same⟩ := Logged.yields_map_iff.mp performed
      obtain ⟨rfl, _⟩ := Prod.mk.inj same
      exact tables.of_forward answered
  | inverse a =>
      obtain ⟨⟨found, b⟩, answered, same⟩ := Logged.yields_map_iff.mp performed
      obtain ⟨rfl, _⟩ := Prod.mk.inj same
      exact tables.of_inverse answered
  | convolve a b =>
      obtain ⟨⟨found, c⟩, answered, same⟩ := Logged.yields_map_iff.mp performed
      obtain ⟨rfl, _⟩ := Prod.mk.inj same
      exact tables.of_convolve answered

-----------------------------------------------------------------------------------------
-- Refusals
-----------------------------------------------------------------------------------------

theorem reserve_answers (tables : plan.Tables t) (n : Nat)
    : AnswersOrRefuses T n (plan.reserve n) := by
  rcases tables.reserve_cases n with
    ⟨_, kept⟩ | ⟨_, next, _, _, _, grown, _⟩ | ⟨_, refused⟩
  · exact .inl ⟨plan, kept⟩
  · exact .inl ⟨next, grown⟩
  · exact .inr refused

theorem prepare_answers (tables : plan.Tables t) (n : Nat)
    : AnswersOrRefuses T n (plan.prepare n) := by
  unfold prepare
  split
  · rename_i uneven
    exact .inr ⟨_, .uneven uneven.2, rfl⟩
  · split
    · exact .inl ⟨plan, Logged.yields_pure plan⟩
    · exact tables.reserve_answers n

theorem forward_answers (tables : plan.Tables t) (a : List T)
    : AnswersOrRefuses T a.length (plan.forward a) :=
  (tables.prepare_answers a.length).bind fun _ => ⟨_, Logged.yields_pure _⟩

theorem inverse_answers (tables : plan.Tables t) (a : List T)
    : AnswersOrRefuses T a.length (plan.inverse a) := by
  unfold inverse
  split
  · exact .inl ⟨_, Logged.yields_pure _⟩
  · exact (tables.forward_answers a).bind fun _ => ⟨_, Logged.yields_pure _⟩

theorem convolve_answers (tables : plan.Tables t) (a b : List T)
    : AnswersOrRefuses T (PlanRequest.convolve a b).length (plan.convolve a b) := by
  unfold convolve
  simp only [PlanRequest.length]
  split
  · exact .inl ⟨_, Logged.yields_pure _⟩
  · exact (tables.prepare_answers _).bind fun _ => ⟨_, Logged.yields_pure _⟩

/-- A request is answered, or refused for its length before anything is logged. -/
theorem perform_answers (tables : plan.Tables t) (request : PlanRequest T)
    : AnswersOrRefuses T request.length (plan.perform request) := by
  cases request with
  | fresh => exact .inl ⟨_, Logged.yields_pure _⟩
  | capacity => exact .inl ⟨_, Logged.yields_pure _⟩
  | withCapacity n => exact (tables_base.reserve_answers n).map _
  | reserve n => exact (tables.reserve_answers n).map _
  | forward a => exact (tables.forward_answers a).map _
  | inverse a => exact (tables.inverse_answers a).map _
  | convolve a b => exact (tables.convolve_answers a b).map _

/-- No request shortens the tables unless it starts anew. -/
theorem capacity_le_after (tables : plan.Tables t) {request : PlanRequest T}
    (kept : request.startsAnew = false)
    : plan.capacity ≤ (plan.after request).capacity := by
  cases performed : (plan.perform request).outcome with
  | error fault =>
      simp only [Plan.after, performed]
      exact Nat.le_refl _
  | ok served =>
      obtain ⟨next, answer⟩ := served
      obtain ⟨u, grown⟩ := tables.of_perform performed
      have covers := grown.covers
      rw [kept, if_neg Bool.false_ne_true] at covers
      simp only [Plan.after, performed]
      rw [tables.capacity_eq, grown.tables.capacity_eq, covers]
      exact Nat.le_max_left _ _

end Tables

/-- A new plan has served nothing. -/
theorem serves_base : (base : Plan T).Serves [] 1 :=
  ⟨tables_base, rfl, Nat.le_max_left _ _⟩

/-- One request keeps the tables as long as the longest length that was served. -/
theorem Serves.after {plan : Plan T} {lengths : List Nat} {t : Nat}
    (serves : plan.Serves lengths t) (request : PlanRequest T)
    : ∃ u, (plan.after request).Serves (plan.record lengths request) u := by
  cases performed : (plan.perform request).outcome with
  | error fault =>
      simp only [Plan.after, record, performed]
      exact ⟨t, serves⟩
  | ok served =>
      obtain ⟨next, answer⟩ := served
      obtain ⟨u, grown⟩ := serves.tables.of_perform performed
      have covers := grown.covers
      have supported := grown.supported
      have bound := serves.supported
      simp only [Plan.after, record, performed]
      cases anew : request.startsAnew with
      | true =>
          rw [anew, if_pos rfl] at covers supported
          refine ⟨u, grown.tables, ?_, supported⟩
          rw [covers, Nat.max_comm]
          rfl
      | false =>
          rw [anew, if_neg Bool.false_ne_true] at covers supported
          refine ⟨u, grown.tables, ?_, by omega⟩
          rw [covers, serves.covers, Nat.max_comm]
          rfl

/-- After any further requests the tables are as long as the longest length that was served, by
induction on the requests.
-/
theorem Serves.afterAll {plan : Plan T} {lengths : List Nat} {t : Nat}
    (serves : plan.Serves lengths t) (requests : List (PlanRequest T))
    : ∃ u, (requests.foldl Plan.after plan).Serves (plan.servedFrom lengths requests) u := by
  induction requests generalizing plan lengths t with
  | nil => exact ⟨t, serves⟩
  | cons request rest ih =>
      obtain ⟨u, next⟩ := serves.after request
      exact ih next

theorem exists_serves_afterAll (history : List (PlanRequest T))
    : ∃ t, (afterAll history).Serves (served history) t :=
  serves_base.afterAll history

/-- After any history of requests the tables have their form. -/
theorem exists_tables_afterAll (history : List (PlanRequest T))
    : ∃ t, (afterAll history).Tables t := by
  obtain ⟨t, serves⟩ := exists_serves_afterAll history
  exact ⟨t, serves.tables⟩

end Plan

end FastAlgebra
