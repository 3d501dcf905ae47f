import Mathlib
import FastAlgebra.Transform.InPlace
import FastAlgebra.Proofs.Transform.RoundTrip

/-! Requests carried out in place. They come to the same plans, answers and logs as requests that
build everything anew, and a request that fails does so before its first change: the length is
tested first, and after that nothing can fail any more, because a table of supported length has a
root for every level.
-/

namespace FastAlgebra

open CoeffList

-- The operations of the scalars and those of the ring agree by the laws of `LawfulScalar`.
set_option linter.overlappingInstances false

/-- A property that each round preserves holds at the end, by induction on the rounds. -/
theorem foldl_range {α : Type} {motive : Nat → α → Prop} {f : α → Nat → α} {start : α} {n : Nat}
    (first : motive 0 start) (next : ∀ i < n, ∀ x, motive i x → motive (i + 1) (f x i))
    : motive n ((List.range n).foldl f start) := by
  induction n with
  | zero => exact first
  | succ n ih =>
      rw [List.range_succ, List.foldl_append, List.foldl_cons, List.foldl_nil]
      refine next n (Nat.lt_succ_self n) _ (ih ?_)
      intro i below
      exact next i (below.trans (Nat.lt_succ_self n))

-----------------------------------------------------------------------------------------
-- Swaps
-----------------------------------------------------------------------------------------

/-- The partners of the indices below `n` are below `n`, and each is the partner of its own. -/
structure Pairing (partner : Nat → Nat) (n : Nat) : Prop where
  within : ∀ i < n, partner i < n
  involutive : ∀ i < n, partner (partner i) = i

/-- The pairs with an index below `count` have changed places, the others have not. -/
structure SwappedBelow {T : Type} (partner : Nat → Nat) (a : Array T) (count : Nat) (b : Array T)
    : Prop where
  size : b.size = a.size
  met : ∀ p < a.size, p < count ∨ partner p < count → b[p]? = a[partner p]?
  unmet : ∀ p < a.size, ¬ (p < count ∨ partner p < count) → b[p]? = a[p]?

namespace SwappedBelow

variable {T : Type} {partner : Nat → Nat} {a b : Array T} {count : Nat}

theorem start (partner : Nat → Nat) (a : Array T) : SwappedBelow partner a 0 a where
  size := rfl
  met p _ below := by omega
  unmet p _ _ := rfl

/-- An index that comes before its partner is swapped with it. -/
theorem swap (swapped : SwappedBelow partner a count b) (pairing : Pairing partner a.size)
    (inside : count < a.size) (before : count < partner count)
    : SwappedBelow partner a (count + 1) (b.swapIfInBounds count (partner count)) := by
  have there := pairing.within count inside
  have back := pairing.involutive count inside
  have size := swapped.size
  have here : b[count]? = a[count]? := swapped.unmet count inside (by omega)
  have other : b[partner count]? = a[partner count]? :=
    swapped.unmet _ there (by rw [back]; omega)
  rw [Array.getElem?_eq_getElem (by omega)] at here other
  rw [Array.swapIfInBounds_def, dif_pos (by omega), dif_pos (by omega)]
  refine ⟨by rw [Array.size_swap, size], ?_, ?_⟩
  · intro p below met
    rw [Array.getElem?_swap]
    split
    · rename_i same
      rw [here, ← same, back]
    · split
      · rename_i _ same
        rw [other, same]
      · rename_i first second
        apply swapped.met p below
        have apart : partner p ≠ count := fun same => first (by
          rw [← same, pairing.involutive p below])
        omega
  · intro p below unmet
    have apart : partner count ≠ p := fun same => unmet (by rw [← same, back]; omega)
    rw [Array.getElem?_swap, if_neg apart, if_neg (by omega)]
    exact swapped.unmet p below (by omega)

/-- An index that does not come before its partner has met it already, or is its own partner. -/
theorem skip (swapped : SwappedBelow partner a count b) (pairing : Pairing partner a.size)
    (inside : count < a.size) (after : partner count ≤ count)
    : SwappedBelow partner a (count + 1) b := by
  refine ⟨swapped.size, ?_, ?_⟩
  · intro p below met
    by_cases earlier : p < count ∨ partner p < count
    · exact swapped.met p below earlier
    · have alone : partner p = p := by
        rcases (show p = count ∨ partner p = count by omega) with rfl | same
        · omega
        · have back := pairing.involutive p below
          rw [same] at back
          omega
      rw [alone]
      exact swapped.unmet p below earlier
  · intro p below unmet
    exact swapped.unmet p below (by omega)

end SwappedBelow

/-- Swapping all pairs gathers the entries from their partners. -/
theorem swapPairs_eq {T : Type} {partner : Nat → Nat} {a : Array T}
    (pairing : Pairing partner a.size) (default : T)
    : swapPairs partner a = Array.ofFn fun i : Fin a.size => a.getD (partner i) default := by
  have swapped : SwappedBelow partner a a.size (swapPairs partner a) := by
    apply foldl_range (SwappedBelow.start partner a)
    intro i inside b swapped
    unfold swapOnce
    split
    · rename_i before
      exact swapped.swap pairing inside before
    · rename_i after
      exact swapped.skip pairing inside (Nat.le_of_not_lt after)
  apply Array.ext_getElem?
  intro p
  rcases Nat.lt_or_ge p a.size with inside | past
  · have there := pairing.within p inside
    rw [swapped.met p inside (.inl inside), Array.getElem?_ofFn, dif_pos inside,
      Array.getD_eq_getD_getElem?, Array.getElem?_eq_getElem there, Option.getD_some]
  · have left := Array.getElem?_eq_none (swapped.size.le.trans past)
    rw [left, Array.getElem?_eq_none (by rwa [Array.size_ofFn])]

-----------------------------------------------------------------------------------------
-- The table of reversed indices
-----------------------------------------------------------------------------------------

/-- The entries of a table of the length `2 ^ u` are new below `count`. The first one always is. -/
structure RewrittenBelow (u count : Nat) (table : Array Nat) : Prop where
  size : table.size = 2 ^ u
  entries : ∀ i < max count 1, table[i]? = some (reverseDigits u i)

/-- The next entry is written after the entry of its half. -/
theorem RewrittenBelow.next {u count : Nat} {table : Array Nat}
    (rewritten : RewrittenBelow u count table) (inside : count < 2 ^ u)
    : RewrittenBelow u (count + 1) (rewriteEntry (2 ^ u) table count) := by
  have size := rewritten.size
  have half : table.getD (count / 2) 0 = reverseDigits u (count / 2) := by
    rw [Array.getD_eq_getD_getElem?, rewritten.entries (count / 2) (by omega), Option.getD_some]
  rw [rewriteEntry, half, reverseDigits_step inside]
  refine ⟨by rw [Array.size_setIfInBounds, size], ?_⟩
  intro i below
  rw [Array.getElem?_setIfInBounds]
  split
  · rename_i here
    rw [if_pos (by omega), here]
  · exact rewritten.entries i (by omega)

/-- A table that is rewritten is the table of the new length. -/
theorem rewriteReversal_eq {u : Nat} {table : Array Nat} (smaller : table.size ≤ 2 ^ u)
    (first : table[0]? = some 0)
    : rewriteReversal (2 ^ u) table = bitReversal (2 ^ u) := by
  have whole : table.take (2 ^ u) = table := Array.extract_eq_self_of_le smaller
  have positive : 0 < table.size := (Array.getElem?_eq_some_iff.mp first).1
  have start : RewrittenBelow u 0 (table ++ Array.replicate (2 ^ u - table.size) 0) := by
    refine ⟨by rw [Array.size_append, Array.size_replicate]; omega, ?_⟩
    intro i only
    obtain rfl : i = 0 := by omega
    rw [Array.getElem?_append_left positive, first, reverseDigits_of_zero]
  have rewritten : RewrittenBelow u (2 ^ u) (rewriteReversal (2 ^ u) table) := by
    rw [rewriteReversal, whole]
    exact foldl_range start fun i inside next rewritten => rewritten.next inside
  apply Array.ext_getElem?
  intro i
  rcases Nat.lt_or_ge i (2 ^ u) with inside | past
  · rw [getElem?_bitReversal inside]
    exact rewritten.entries i (by omega)
  · have left := Array.getElem?_eq_none (rewritten.size.le.trans past)
    have right := Array.getElem?_eq_none ((size_bitReversal u).le.trans past)
    exact left.trans right.symm

-----------------------------------------------------------------------------------------
-- Steps that follow a run
-----------------------------------------------------------------------------------------

/-- How steps end that follow a run: with its answer, its plan, its list and its log if it succeeds,
and with its fault and an untouched workspace if it fails.
-/
def Workspace.settle {T α : Type} (w : Workspace T) (run : Kernel (α × Plan T × Array T))
    : EStateM.Result Fault (Workspace T) α :=
  match run.outcome with
  | .ok (answer, plan, slice) => .ok answer ⟨plan, slice, w.events ++ run.events⟩
  | .error fault => .error fault w

namespace Workspace

variable {T α : Type} (w : Workspace T)

theorem settle_pure (answer : α) (plan : Plan T) (slice : Array T)
    : w.settle (pure (answer, plan, slice)) = .ok answer ⟨plan, slice, w.events⟩ := by
  rw [settle, Logged.outcome_pure, Logged.events_pure, List.append_nil]

theorem settle_of_yields {run : Kernel (α × Plan T × Array T)} {answer : α} {plan : Plan T}
    {slice : Array T} (h : run.Yields (answer, plan, slice))
    : w.settle run = .ok answer ⟨plan, slice, w.events ++ run.events⟩ := by
  have ends : run.outcome = .ok (answer, plan, slice) := h
  rw [settle, ends]

end Workspace

/-- Steps that follow a run still follow it when what comes after them cannot fail and logs
nothing.
-/
theorem Steps.run_bind_settle {T α β : Type} {first : Steps T α} {rest : α → Steps T β}
    {w : Workspace T} {run : Kernel (α × Plan T × Array T)}
    {f : α × Plan T × Array T → β × Plan T × Array T}
    (begins : first.run w = w.settle run)
    (ends : ∀ answer plan slice events, run.Yields (answer, plan, slice) →
      (rest answer).run ⟨plan, slice, events⟩
        = .ok (f (answer, plan, slice)).1
            ⟨(f (answer, plan, slice)).2.1, (f (answer, plan, slice)).2.2, events⟩)
    : (first >>= rest).run w = w.settle (f <$> run) := by
  obtain ⟨events, fault | ⟨answer, plan, slice⟩⟩ := run
  · rw [EStateM.run_bind, begins]
    rfl
  · rw [EStateM.run_bind, begins]
    refine (ends answer plan slice (w.events ++ events) rfl).trans ?_
    have log : w.events ++ (events ++ []) = w.events ++ events := by rw [List.append_nil]
    exact congrArg (fun log => EStateM.Result.ok _ (Workspace.mk _ _ log)) log.symm

namespace Steps

variable {T : Type} [TransformScalar T]

/-- Levels of roots that can be appended are appended, by induction on the levels. -/
theorem forM_extendLevel {levels : List Nat} {w : Workspace T} {roots : Array T}
    (grown : levels.foldlM TransformScalar.extendRoots w.plan.roots = .ok roots)
    : (forM levels extendLevel).run w = .ok () { w with plan.roots := roots } := by
  induction levels generalizing w with
  | nil =>
      obtain rfl : w.plan.roots = roots := Except.ok.inj grown
      rfl
  | cons k rest ih =>
      rw [List.foldlM_cons] at grown
      rw [List.forM_cons, EStateM.run_bind]
      cases extended : TransformScalar.extendRoots w.plan.roots k with
      | error violation =>
          rw [extended] at grown
          exact nomatch grown
      | ok next =>
          rw [extended] at grown
          have step : (extendLevel k).run w = .ok () { w with plan.roots := next } := by
            rw [extendLevel, EStateM.run_bind, EStateM.run_get]
            simp only [extended]
            rfl
          rw [step]
          exact ih (w := { w with plan.roots := next }) grown

/-- The levels of a transform change nothing but the list, by induction on the levels. -/
theorem forM_butterflies (levels : List Nat) (w : Workspace T)
    : (forM levels fun k => changeSlice fun plan a => butterflies plan.roots a k).run w
      = .ok () { w with slice := levels.foldl (butterflies w.plan.roots) w.slice } := by
  induction levels generalizing w with
  | nil => rfl
  | cons k rest ih =>
      rw [List.forM_cons, EStateM.run_bind]
      exact ih _

/-- The product from the transform of its first factor: the transforms are joined, and what they
make is transformed back.
-/
def productFrom (plan : Plan T) (n : Nat) (image b : List T) : List T :=
  let factor : T := TransformScalar.inverseLength n
  plan.transform (reflect
    (List.zipWith (fun x y => x * y * factor) image (plan.transform (resize n b))))

variable [CommRing T] [LawfulScalar T] {w : Workspace T} {t : Nat}

-----------------------------------------------------------------------------------------
-- Reservations and transforms
-----------------------------------------------------------------------------------------

/-- A reservation in place grows the tables into those that a reservation builds anew. Once the
length is accepted, every level of roots can be appended.
-/
theorem reserve_run (tables : w.plan.Tables t) (n : Nat)
    : (reserve n).run w = w.settle ((fun plan => ((), plan, w.slice)) <$> w.plan.reserve n) := by
  rw [reserve, EStateM.run_bind, EStateM.run_get, Plan.reserve]
  simp only
  split
  · exact (w.settle_pure () w.plan w.slice).symm
  · rename_i longer
    split
    · rfl
    · rename_i dyadic
      split
      · rfl
      · rename_i supported
        obtain ⟨u, rfl⟩ := (isDyadic_iff n).mp (not_not.mp dyadic)
        rw [LawfulScalar.laws.maxLength_eq, Nat.not_lt, Nat.pow_le_pow_iff_right (by omega)]
          at supported
        rw [tables.capacity_eq, Nat.not_le, Nat.pow_lt_pow_iff_right (by omega)] at longer
        obtain ⟨roots, grown, _⟩ :=
          Plan.Tables.exists_roots tables.positive tables.roots longer.le supported
        rw [← tables.capacity_eq] at grown
        have smaller : w.plan.reversal.size ≤ 2 ^ u := by
          rw [tables.size]
          exact Nat.pow_le_pow_right (by omega) longer.le
        have first : w.plan.reversal[0]? = some 0 := by
          rw [tables.reversed 0 (Nat.two_pow_pos t), reverseDigits_of_zero]
        have rewritten := rewriteReversal_eq smaller first
        rw [grown]
        -- What the two steps before the levels of roots leave.
        refine (forM_extendLevel
          (w := ⟨⟨rewriteReversal (2 ^ u) w.plan.reversal, w.plan.roots⟩, w.slice,
            w.events ++ [.tablesGrown w.plan.capacity (2 ^ u)]⟩) grown).trans ?_
        rw [rewritten]
        rfl

/-- The shifted table of reversed indices pairs the indices below every length that it covers. -/
theorem pairing_reversal {plan : Plan T} (tables : plan.Tables t) {s : Nat} (covered : s ≤ t)
    : Pairing (fun i => plan.reversal.getD i 0 >>> (plan.reversal.size / 2 ^ s).log2) (2 ^ s) := by
  refine ⟨?_, ?_⟩
  · intro i inside
    rw [tables.shifted_reversal covered inside]
    exact reverseDigits_lt s i
  · intro i inside
    rw [tables.shifted_reversal covered inside,
      tables.shifted_reversal covered (reverseDigits_lt s i), reverseDigits_reverseDigits inside]

/-- A transform in place: once the entries are swapped, the levels are those of the transform. -/
theorem transform_swapPairs {plan : Plan T} (tables : plan.Tables t) {a : Array T} {s : Nat}
    (size : a.size = 2 ^ s) (covered : s ≤ t)
    : ((doublings 1 a.size).foldl (butterflies plan.roots)
        (swapPairs (fun i => plan.reversal.getD i 0 >>> (plan.reversal.size / a.size).log2) a))
      = (plan.transform a.toList).toArray := by
  have pairing := pairing_reversal tables covered
  rw [← size] at pairing
  rw [swapPairs_eq pairing TransformScalar.toZero.zero]
  rfl

/-- A list of one entry at most is its own transform. -/
theorem transform_of_length_le_one {plan : Plan T} (tables : plan.Tables t) {a : List T}
    (short : a.length ≤ 1)
    : plan.transform a = a := by
  rcases Nat.le_one_iff_eq_zero_or_eq_one.mp short with none | one
  · have empty := (plan.length_transform a).trans none
    rw [List.length_eq_zero_iff.mp none] at empty ⊢
    exact List.length_eq_zero_iff.mp empty
  · rw [tables.transform_eq (s := 0) one (Nat.zero_le _) (Nat.zero_le _)]
    exact spectrum_of_length_one _ one

/-- A transform in place answers with the list that the transform answers with. Nothing is changed
before the length is reserved, and nothing fails afterwards.
-/
theorem forward_run (tables : w.plan.Tables t)
    : forward.run w
      = w.settle ((fun found => ((), found.1, found.2.toArray))
          <$> w.plan.forward w.slice.toList) := by
  rw [forward, EStateM.run_bind, EStateM.run_get, Plan.forward, Plan.prepare,
    Array.length_toList]
  simp only
  split
  · rfl
  · rename_i even
    split
    · rename_i short
      have single : w.plan.transform w.slice.toList = w.slice.toList :=
        transform_of_length_le_one tables (by rwa [Array.length_toList])
      rw [pure_bind, map_pure, single]
      exact (w.settle_pure () w.plan w.slice).symm
    · rename_i several
      have dyadic : IsDyadic w.slice.size := by
        by_contra uneven
        exact even ⟨by omega, uneven⟩
      obtain ⟨s, size⟩ := (isDyadic_iff w.slice.size).mp dyadic
      rw [bind_pure_comp, Functor.map_map]
      refine (run_bind_settle
        (f := fun left => ((), left.2.1, (left.2.1.transform left.2.2.toList).toArray))
        (reserve_run tables w.slice.size) ?_).trans (by rw [Functor.map_map])
      intro answer plan slice events answered
      obtain ⟨next, reserved, same⟩ := Logged.yields_map_iff.mp answered
      obtain ⟨rfl, rfl⟩ := Prod.mk.inj (Prod.mk.inj same).2
      rw [size] at reserved
      obtain ⟨u, grown⟩ := tables.of_reserve reserved
      refine (forM_butterflies _ _).trans ?_
      exact congrArg (fun slice => EStateM.Result.ok () (Workspace.mk _ slice events))
        (transform_swapPairs grown.tables size grown.level_le)

/-- An inverse transform in place: what comes after the transform cannot fail. -/
theorem inverse_run (tables : w.plan.Tables t)
    : inverse.run w
      = w.settle ((fun found => ((), found.1, found.2.toArray))
          <$> w.plan.inverse w.slice.toList) := by
  rw [inverse, EStateM.run_bind, EStateM.run_get, Plan.inverse, Array.length_toList]
  simp only
  split
  · rw [map_pure]
    exact (w.settle_pure () w.plan w.slice).symm
  · rw [bind_pure_comp, Functor.map_map]
    refine (run_bind_settle
      (f := fun left => ((), left.2.1, ((reflect left.2.2.toList).map
        (TransformScalar.toMul.mul · (TransformScalar.inverseLength w.slice.size))).toArray))
      (forward_run tables) ?_).trans (by rw [Functor.map_map]; rfl)
    intro answer plan slice events _
    exact congrArg (fun slice => EStateM.Result.ok () (Workspace.mk plan slice events))
      (List.map_toArray ..)

-----------------------------------------------------------------------------------------
-- Products and requests
-----------------------------------------------------------------------------------------

/-- A transform on a buffer leaves the list at hand alone. -/
theorem onBuffer_forward_run (tables : w.plan.Tables t) (buffer : List T)
    : (onBuffer buffer forward).run w
      = w.settle ((fun found => (found.2, found.1, w.slice)) <$> w.plan.forward buffer) := by
  have inner := forward_run (w := { w with slice := buffer.toArray }) tables
  rw [EStateM.run, onBuffer, inner]
  generalize w.plan.forward buffer = run
  obtain ⟨events, fault | ⟨plan, b⟩⟩ := run
  · rfl
  · rfl

/-- A transform of a length that is covered leaves the plan alone. -/
theorem forward_of_covered {plan : Plan T} (tables : plan.Tables t) {a : List T} {s : Nat}
    (length : a.length = 2 ^ s) (covered : s ≤ t)
    : plan.forward a = pure (plan, plan.transform a) := by
  have within : 2 ^ s ≤ plan.capacity := by
    rw [tables.capacity_eq]
    exact Nat.pow_le_pow_right (by omega) covered
  have prepared : plan.prepare (2 ^ s) = pure plan := by
    rw [Plan.prepare, if_neg (fun both => both.2 (isDyadic_two_pow s)), Plan.reserve, if_pos within,
      ite_self]
  rw [Plan.forward, length, prepared, pure_bind]

theorem onBuffer_forward_of_covered (tables : w.plan.Tables t) {a : List T} {s : Nat}
    (length : a.length = 2 ^ s) (covered : s ≤ t)
    : (onBuffer a forward).run w = .ok (w.plan.transform a) w := by
  rw [onBuffer_forward_run tables, forward_of_covered tables length covered, map_pure]
  exact w.settle_pure _ w.plan w.slice

/-- A product in place: the transform of the first buffer brings the tables to the length of the
other two.
-/
theorem convolve_run (tables : w.plan.Tables t) (a b : List T)
    : (convolve a b).run w
      = w.settle ((fun found => (found.2, found.1, w.slice)) <$> w.plan.convolve a b) := by
  unfold convolve Plan.convolve
  split
  · rw [map_pure]
    exact (w.settle_pure [] w.plan w.slice).symm
  · obtain ⟨s, padded⟩ := exists_nextPowerOfTwo_eq (a.length + b.length - 1)
    simp only [padded]
    rw [bind_pure_comp, Functor.map_map]
    refine (run_bind_settle
      (f := fun left =>
        ((productFrom left.2.1 (2 ^ s) left.1 b).take (a.length + b.length - 1), left.2))
      (onBuffer_forward_run tables _) ?_).trans ?_
    · intro image plan slice events answered
      obtain ⟨⟨next, found⟩, transformed, same⟩ := Logged.yields_map_iff.mp answered
      obtain ⟨rfl, rest⟩ := Prod.mk.inj same
      obtain ⟨rfl, rfl⟩ := Prod.mk.inj rest
      obtain ⟨u, grown⟩ := tables.of_forward transformed
      rw [length_resize] at grown
      have length : found.length = 2 ^ s := by
        obtain ⟨_, _, image⟩ := Logged.yields_bind_iff.mp transformed
        rw [Logged.yields_pure_iff, Prod.mk.injEq] at image
        rw [← image.2, Plan.length_transform, length_resize]
      rw [EStateM.run_bind, onBuffer_forward_of_covered grown.tables (length_resize _ _)
        grown.level_le]
      simp only
      rw [EStateM.run_bind, onBuffer_forward_of_covered grown.tables (s := s) _ grown.level_le]
      · rfl
      · rw [length_reflect, List.length_zipWith, length, Plan.length_transform, length_resize,
          Nat.min_self]
    · rw [Plan.forward, length_resize, bind_pure_comp, Functor.map_map, Functor.map_map]
      rfl

/-- A new plan is reserved on a workspace of its own, so a failure leaves the plan at hand. -/
theorem onNewPlan_reserve_run (w : Workspace T) (n : Nat)
    : (onNewPlan (reserve n)).run w
      = w.settle ((fun plan => ((), plan, w.slice)) <$> Plan.withCapacity n) := by
  have inner := reserve_run (w := { w with plan := Plan.base }) Plan.tables_base n
  rw [EStateM.run, onNewPlan, inner, Plan.withCapacity]
  generalize Plan.reserve (Plan.base : Plan T) n = run
  obtain ⟨events, fault | plan⟩ := run
  · rfl
  · rfl

/-- What is left of the list that was handed over with a request: its transform, or nothing if none
was asked for.
-/
def leftOver (request : PlanRequest T) (answer : Option (List T)) : Array T :=
  match request with
  | .forward _ => (answer.getD []).toArray
  | .inverse _ => (answer.getD []).toArray
  | _ => #[]

/-- A request in place gives the answer, the plan and the log of a request that builds its tables
anew, or fails like it and changes nothing. By cases on the request.
-/
theorem perform_run {plan : Plan T} (tables : plan.Tables t) (request : PlanRequest T)
    (events : List Event)
    : (perform request).run (.handed plan request events)
      = (Workspace.handed plan request events).settle
          ((fun found => (found.2, found.1, leftOver request found.2))
            <$> plan.perform request) := by
  cases request with
  | fresh =>
      rw [Plan.perform, map_pure, Workspace.settle_pure]
      rfl
  | capacity =>
      rw [Plan.perform, map_pure, Workspace.settle_pure]
      rfl
  | withCapacity n =>
      rw [Plan.perform, Functor.map_map]
      refine (run_bind_settle (f := fun left => (none, left.2))
        (onNewPlan_reserve_run _ n) fun _ _ _ _ _ => rfl).trans ?_
      rw [Functor.map_map]
      rfl
  | reserve n =>
      rw [Plan.perform, Functor.map_map]
      refine (run_bind_settle (f := fun left => (none, left.2))
        (reserve_run tables n) fun _ _ _ _ _ => rfl).trans ?_
      rw [Functor.map_map]
      rfl
  | forward a =>
      rw [Plan.perform, Functor.map_map]
      refine (run_bind_settle (f := fun left => (some left.2.2.toList, left.2))
        (forward_run tables) fun _ _ _ _ _ => rfl).trans ?_
      rw [Functor.map_map]
      rfl
  | inverse a =>
      rw [Plan.perform, Functor.map_map]
      refine (run_bind_settle (f := fun left => (some left.2.2.toList, left.2))
        (inverse_run tables) fun _ _ _ _ _ => rfl).trans ?_
      rw [Functor.map_map]
      rfl
  | convolve a b =>
      rw [Plan.perform, Functor.map_map, perform, map_eq_pure_bind]
      refine (run_bind_settle (f := fun left => (some left.1, left.2))
        (convolve_run tables a b) fun _ _ _ _ _ => rfl).trans ?_
      rw [Functor.map_map]
      rfl

end Steps

end FastAlgebra
