import Mathlib
import FastAlgebra.Proofs.Transform.InPlace
import FastAlgebra.Proofs.Transform.Product

/-! The tables of every plan that requests in place can reach. They have one length, the longest one
that was served, and hold the reversed digits of the indices and the powers of the roots of every
order up to it. A request that is refused has changed nothing.
-/

namespace FastAlgebra

-- The operations of the scalars and those of the ring agree by the laws of `LawfulScalar`.
set_option linter.overlappingInstances false

namespace Plan

section Lawful

variable {T : Type} [TransformScalar T] [CommRing T] [LawfulScalar T]

/-- A request in place leaves the plan of a request that builds its tables anew. -/
theorem Tables.afterSteps_eq {plan : Plan T} {t : Nat} (tables : plan.Tables t)
    (request : PlanRequest T)
    : plan.afterSteps request = plan.after request := by
  rw [afterSteps, after, Steps.perform_run tables request []]
  generalize plan.perform request = run
  obtain ⟨events, fault | ⟨next, answer⟩⟩ := run
  · rfl
  · rfl

/-- A history of requests in place leaves the plan of a history of requests that build their tables
anew, by induction on the requests.
-/
theorem Serves.foldl_afterSteps {plan : Plan T} {lengths : List Nat} {t : Nat}
    (serves : plan.Serves lengths t) (requests : List (PlanRequest T))
    : requests.foldl afterSteps plan = requests.foldl Plan.after plan := by
  induction requests generalizing plan lengths t with
  | nil => rfl
  | cons request rest ih =>
      obtain ⟨u, next⟩ := serves.after request
      rw [List.foldl_cons, List.foldl_cons, serves.tables.afterSteps_eq request]
      exact ih next

theorem reached_eq (history : List (PlanRequest T)) : reached history = afterAll history :=
  serves_base.foldl_afterSteps history

/-- A request in place is answered when it would be by tables that are built anew, with the same
answer and the same plan.
-/
theorem Tables.yields_perform_iff {plan : Plan T} {t : Nat} (tables : plan.Tables t)
    (request : PlanRequest T) (events : List Event) (next : Plan T) (answer : Option (List T))
    : (plan.perform request).Yields (next, answer)
      ↔ ∃ slice log, (Steps.perform request).run (.handed plan request events)
          = .ok answer ⟨next, slice, log⟩ := by
  rw [Steps.perform_run tables request events]
  generalize plan.perform request = run
  obtain ⟨log, fault | ⟨found, given⟩⟩ := run
  · constructor
    · intro answered
      exact nomatch answered
    · rintro ⟨_, _, settled⟩
      exact nomatch settled
  · constructor
    · intro answered
      obtain ⟨rfl, rfl⟩ := Prod.mk.inj (Except.ok.inj answered)
      exact ⟨_, _, rfl⟩
    · rintro ⟨slice, events, settled⟩
      injection settled with same left
      obtain rfl : found = next := congrArg Workspace.plan left
      rw [← same]
      rfl

/-- A request in place that fails is refused for its length, and changes nothing. -/
theorem Tables.refuses_of_error {plan : Plan T} {t : Nat} (tables : plan.Tables t)
    {request : PlanRequest T} {events : List Event} {fault : Fault} {left : Workspace T}
    (failed : (Steps.perform request).run (.handed plan request events) = .error fault left)
    : left = .handed plan request events ∧ RefusedLength T request.length fault := by
  rw [Steps.perform_run tables request events] at failed
  rcases tables.perform_answers request with ⟨⟨next, answer⟩, answered⟩ | ⟨found, refused, fails⟩
  · rw [Workspace.settle_of_yields _ (answered.map _)] at failed
    exact nomatch failed
  · rw [fails] at failed
    injection failed with same kept
    exact ⟨kept.symm, same ▸ refused⟩

end Lawful

variable {m : Modulus} [Fact m.toNat.Prime]

/-- The tables have the length of the capacity, a power of two between two and the limit of the
scalars. They hold the binary digits of each index in reverse, and behind each smaller power of two
`k` the powers of the root of order `2 k`.
-/
structure TableInvariant (plan : Plan (Residue m)) : Prop where
  dyadic : IsDyadic plan.capacity
  several : 2 ≤ plan.capacity
  supported : plan.capacity ≤ max 2 (TransformScalar.maxLength (Residue m))
  sameLength : plan.reversal.size = plan.capacity
  reversed
    : ∀ i < plan.capacity,
        ∃ r < plan.capacity,
          plan.reversal[i]? = some r
            ∧ ∀ b < plan.capacity.log2, r.testBit b = i.testBit (plan.capacity.log2 - 1 - b)
  powers
    : ∀ k < plan.capacity,
        IsDyadic k
          → ∃ w, Residue.rootOfUnity? (2 * k) = some w
              ∧ ∀ j < k, plan.roots[k + j]? = some (w ^ j)

/-- Tables whose level the modulus supports have the form of the invariant. -/
theorem Tables.invariant {plan : Plan (Residue m)} {t : Nat} (tables : plan.Tables t)
    (supported : t ≤ m.twoAdicity)
    : plan.TableInvariant := by
  have capacity := tables.capacity_eq
  have positive := tables.positive
  refine ⟨?_, ?_, ?_, ?_, ?_, ?_⟩
  · rw [capacity]
    exact isDyadic_two_pow t
  · rw [capacity]
    exact Nat.le_self_pow (by omega) 2
  · rw [capacity, Residue.maxLength_eq]
    exact (Nat.pow_le_pow_right (by omega) supported).trans (Nat.le_max_right _ _)
  · rw [capacity, tables.size]
  · intro i below
    rw [capacity] at below ⊢
    rw [Nat.log2_two_pow]
    refine ⟨reverseDigits t i, reverseDigits_lt t i, tables.reversed i below, ?_⟩
    intro b digit
    exact testBit_reverseDigits i digit
  · intro k below dyadic
    obtain ⟨s, rfl⟩ := (isDyadic_iff k).mp dyadic
    rw [capacity, Nat.pow_lt_pow_iff_right Nat.one_lt_two] at below
    refine ⟨Residue.root m (s + 1), ?_, tables.roots.power s below⟩
    rw [← pow_succ', Residue.rootOfUnity?_two_pow (by omega)]

/-- What holds of the plan after a history of requests in place, whether they succeeded or not. It
is the plan that requests leave that build their tables anew; the tables keep their form, they reach
as far as the longest length that was served, and no further request shortens them unless it starts
anew. A further request is answered when it would be by tables that are built anew. If it fails, its
length is to blame, and the plan, the list and the log are what they were.
-/
structure Maintained (history : List (PlanRequest (Residue m))) : Prop where
  same : reached history = afterAll history
  tables : (reached history).TableInvariant
  covers : (reached history).capacity = (served history).foldr max 2
  grows
    : ∀ request : PlanRequest (Residue m),
        request.startsAnew = false
          → (reached history).capacity ≤ ((reached history).afterSteps request).capacity
  answers
    : ∀ request events next answer,
        ((reached history).perform request).Yields (next, answer)
          ↔ ∃ slice log,
              (Steps.perform request).run (.handed (reached history) request events)
                = .ok answer ⟨next, slice, log⟩
  refuses
    : ∀ request events fault left,
        (Steps.perform request).run (.handed (reached history) request events)
            = .error fault left
          → left = .handed (reached history) request events
              ∧ RefusedLength (Residue m) request.length fault

/-- For every odd prime the tables are maintained through every history of requests in place. -/
theorem reached_maintained (odd : 2 < m.toNat) (history : List (PlanRequest (Residue m)))
    : Maintained history := by
  obtain ⟨t, serves⟩ := exists_serves_afterAll history
  have same := reached_eq history
  have tables : (reached history).Tables t := same ▸ serves.tables
  refine ⟨same, tables.invariant (serves.level_le odd), ?_, ?_, tables.yields_perform_iff, ?_⟩
  · rw [tables.capacity_eq, serves.covers]
  · intro request kept
    rw [tables.afterSteps_eq request]
    exact tables.capacity_le_after kept
  · intro request events fault left failed
    exact tables.refuses_of_error failed

/-- A reservation for four entries is served, a list of three is refused, and the tables stay. -/
theorem reached_maintained_seventeen
    : 2 < Modulus.seventeen.toNat
      ∧ (reached [.reserve 4, .forward [1, 2, 3]] : Plan (Residue Modulus.seventeen)).TableInvariant
      ∧ (reached [.reserve 4, .forward [1, 2, 3]]
          : Plan (Residue Modulus.seventeen)).capacity = 4 := by
  have odd : 2 < Modulus.seventeen.toNat := by decide
  have supported : 2 ≤ Modulus.seventeen.twoAdicity := by
    rw [Modulus.twoAdicity_seventeen]
    omega
  obtain ⟨u, next, _, reserved, _⟩ :=
    (tables_base (T := Residue Modulus.seventeen)).exists_reserve_yields supported
  have first : (base.perform (.reserve 4)).outcome = .ok (next, none) := reserved.map (·, none)
  have uneven : 3 ≠ 0 ∧ ¬ IsDyadic 3 := by decide +kernel
  have refused : (next.prepare 3).Fails (.violated (.lengthNotPowerOfTwo 3)) := by
    rw [prepare, if_pos uneven]
    exact Logged.fails_fail _
  have second : (next.perform (.forward [1, 2, 3])).outcome
      = .error (.violated (.lengthNotPowerOfTwo 3)) := (refused.bind _).map _
  have lengths : served [.reserve 4, .forward ([1, 2, 3] : List (Residue Modulus.seventeen))]
      = [4] := by
    simp only [served, servedFrom, record, Plan.after, first, second]
    rfl
  have maintained := reached_maintained odd [.reserve 4, .forward [1, 2, 3]]
  refine ⟨odd, maintained.tables, maintained.covers.trans ?_⟩
  rw [lengths]
  rfl

end Plan

end FastAlgebra
