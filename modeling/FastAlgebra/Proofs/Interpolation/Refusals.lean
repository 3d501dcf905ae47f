import Mathlib
import FastAlgebra.Proofs.Interpolation

/-! What interpolation refuses. The derivative of the product vanishes exactly at the points that
stand in the list more than once, in every characteristic. Only these are searched for the first
repeat, and leaving out the others does not change it. So a run refuses the first repeat, or the
lack of points, or a wrong number of values, and nothing else.
-/

namespace FastAlgebra

open Polynomial

-----------------------------------------------------------------------------------------
-- The first repeat of a list
-----------------------------------------------------------------------------------------

section Repeat

variable {α : Type}

/-- The entry at a position stands at an earlier position as well. -/
def RepeatsAt (points : List α) (position : Nat) : Prop :=
  ∃ earlier < position, ∃ point, points[earlier]? = some point ∧ points[position]? = some point

/-- The least position whose entry stands at an earlier one. -/
def IsFirstRepeat (points : List α) (position : Nat) : Prop :=
  IsLeast {later | RepeatsAt points later} position

theorem exists_repeatsAt_iff (points : List α)
    : (∃ position, RepeatsAt points position) ↔ ¬ points.Nodup := by
  rw [List.nodup_iff_getElem?_ne_getElem?]
  push Not
  constructor
  · rintro ⟨position, earlier, before, point, first, second⟩
    have inside := (List.getElem?_eq_some_iff.mp second).1
    exact ⟨earlier, position, before, inside, first.trans second.symm⟩
  · rintro ⟨earlier, position, before, inside, same⟩
    have second := List.getElem?_eq_getElem inside
    exact ⟨position, earlier, before, points[position], same.trans second, second⟩

theorem exists_isFirstRepeat_iff (points : List α)
    : (∃ position, IsFirstRepeat points position) ↔ ¬ points.Nodup := by
  classical
  rw [← exists_repeatsAt_iff]
  constructor
  · rintro ⟨position, first, _⟩
    exact ⟨position, first⟩
  · intro some
    exact ⟨Nat.find some, Nat.find_spec some, fun _ repeats => Nat.find_min' some repeats⟩

/-- Behind different entries, the first one that stands among them is the first repeat. -/
theorem isFirstRepeat_length {before : List α} (distinct : before.Nodup) {point : α}
    (member : point ∈ before) (rest : List α)
    : IsFirstRepeat (before ++ point :: rest) before.length := by
  obtain ⟨earlier, inside, found⟩ := List.mem_iff_getElem.mp member
  refine ⟨⟨earlier, inside, point, ?_, ?_⟩, ?_⟩
  · rw [List.getElem?_append_left inside, List.getElem?_eq_getElem inside, found]
  · rw [List.getElem?_append_right (Nat.le_refl _), Nat.sub_self, List.getElem?_cons_zero]
  · rintro position ⟨earlier, less, point, first, second⟩
    by_contra short
    have within : position < before.length := Nat.lt_of_not_le short
    rw [List.getElem?_append_left (less.trans within)] at first
    rw [List.getElem?_append_left within] at second
    exact (exists_repeatsAt_iff before).mp ⟨position, earlier, less, point, first, second⟩ distinct

end Repeat

namespace ProductTree

variable {F : Type} [DecidableEq F]

/-- The search finds the first repeat behind the entries seen so far, by induction on those to
come.
-/
theorem firstRepeat?_eq_some_iff {before rest seen : List F} (distinct : before.Nodup)
    (same : ∀ point, point ∈ seen ↔ point ∈ before) (position : Nat)
    : firstRepeat? seen (rest.zipIdx before.length) = some position
      ↔ IsFirstRepeat (before ++ rest) position := by
  induction rest generalizing before seen with
  | nil =>
      rw [List.append_nil]
      constructor
      · exact nofun
      · intro first
        exact absurd distinct ((exists_isFirstRepeat_iff before).mp ⟨position, first⟩)
  | cons point rest ih =>
      rw [List.zipIdx_cons, firstRepeat?]
      by_cases member : point ∈ before
      · have first := isFirstRepeat_length distinct member rest
        rw [if_pos ((same point).mpr member), Option.some.injEq]
        constructor
        · rintro rfl
          exact first
        · exact fun other => first.unique other
      · have longer : (before ++ [point]).Nodup := by
          rw [List.nodup_append_comm]
          exact List.nodup_cons.mpr ⟨member, distinct⟩
        have extended : ∀ other, other ∈ point :: seen ↔ other ∈ before ++ [point] := by
          intro other
          rw [List.mem_cons, List.mem_append, List.mem_singleton, same, or_comm]
        rw [if_neg (mt (same point).mp member)]
        have found := ih longer extended
        rwa [List.length_append, List.length_singleton, List.append_assoc,
          List.singleton_append] at found

/-- Leaving out entries that stand only once does not change the first repeat, by induction on the
entries to come.
-/
theorem firstRepeat?_filter (keep : F → Bool) {seen : List F} {entries : List (F × Nat)}
    (single : ∀ point, keep point = false → (seen ++ entries.map Prod.fst).count point ≤ 1)
    : firstRepeat? (seen.filter keep) (entries.filter fun entry => keep entry.1)
      = firstRepeat? seen entries := by
  induction entries generalizing seen with
  | nil => rfl
  | cons entry entries ih =>
      obtain ⟨point, position⟩ := entry
      have moved : ∀ other,
          (point :: seen ++ entries.map Prod.fst).count other
            = (seen ++ ((point, position) :: entries).map Prod.fst).count other := by
        intro other
        rw [List.map_cons]
        exact (List.perm_middle.symm).count_eq other
      have left : ∀ other, keep other = false →
          (point :: seen ++ entries.map Prod.fst).count other ≤ 1 :=
        fun other out => (moved other).trans_le (single other out)
      have rest := ih left
      cases kept : keep point with
      | true =>
          have stays : ((point, position) :: entries).filter (fun entry => keep entry.1)
              = (point, position) :: entries.filter fun entry => keep entry.1 :=
            List.filter_cons_of_pos kept
          rw [List.filter_cons_of_pos kept] at rest
          rw [stays, firstRepeat?, firstRepeat?, rest]
          simp only [List.mem_filter, kept, and_true]
      | false =>
          have fresh : point ∉ seen := by
            intro member
            have twice := single point kept
            rw [List.map_cons, List.count_append, List.count_cons_self] at twice
            have once := List.count_pos_iff.mpr member
            omega
          have dropped : ((point, position) :: entries).filter (fun entry => keep entry.1)
              = entries.filter fun entry => keep entry.1 :=
            List.filter_cons_of_neg (by simp [kept])
          rw [dropped, firstRepeat?, if_neg fresh, ← rest,
            List.filter_cons_of_neg (by simp [kept])]

end ProductTree

-----------------------------------------------------------------------------------------
-- The search among the points with a vanishing slope
-----------------------------------------------------------------------------------------

variable {F : Type} [KernelField F]

namespace ProductTree

/-- The suspects are the points at which the slope vanishes, with their positions. -/
theorem suspects_map (points : List F) (slope : F → F)
    : suspects points (points.map slope)
      = points.zipIdx.filter fun entry => CoeffRing.isZero (slope entry.1) := by
  have paired : points.zip (points.map slope) = points.map fun point => (point, slope point) := by
    conv_lhs => rw [← List.map_id points, List.map_map, List.zip_map']
    rfl
  rw [suspects, paired, List.zipIdx_map, List.filterMap_map, ← List.filterMap_eq_filter]
  rfl

variable [ExactKernels F] [DecidableEq F]

/-- Searching the suspects only finds the first repeat of all points. -/
theorem firstRepeat?_suspects (points : List F) (position : Nat)
    : firstRepeat? []
          (suspects points (points.map (derivative (rootProduct points)).eval)) = some position
      ↔ IsFirstRepeat points position := by
  have single : ∀ point, CoeffRing.isZero ((derivative (rootProduct points)).eval point) = false →
      ([] ++ points.zipIdx.map Prod.fst).count point ≤ 1 := by
    intro point slope
    have nonzero := (LawfulRing.isZero_eq_false_iff _).mp slope
    rw [List.nil_append, List.zipIdx_map_fst]
    by_contra many
    have twice : 2 ≤ points.count point := Nat.lt_of_not_le many
    have member : point ∈ points := List.count_pos_iff.mp (by omega)
    exact nonzero ((eval_derivative_rootProduct_eq_zero_iff member).mpr twice)
  have searched := firstRepeat?_filter
    (fun point => CoeffRing.isZero ((derivative (rootProduct points)).eval point)) single
  rw [List.filter_nil] at searched
  rw [suspects_map, searched]
  exact firstRepeat?_eq_some_iff List.nodup_nil (fun _ => Iff.rfl) position

/-- Over repeated points a tree refuses the first repeat. -/
theorem WellFormed.interpolate_fails {tree : ProductTree F} (wellFormed : tree.WellFormed)
    {values : List F} (length : values.length = tree.points.length) {position : Nat}
    (first : IsFirstRepeat tree.points position)
    : (tree.interpolate values).Fails (.refused (.duplicateNode position)) := by
  obtain ⟨points, config, root⟩ := tree
  cases root with
  | none =>
      obtain rfl : points = [] := wellFormed
      exact absurd List.nodup_nil ((exists_isFirstRepeat_iff _).mp ⟨position, first⟩)
  | some root =>
      have evaluates := wellFormed.evaluate_yields root.product.derivative
      obtain ⟨rfl, wellRoot⟩ := wellFormed
      simp only [wellRoot.map_eval_derivative] at evaluates
      have found := (firstRepeat?_suspects root.points position).mpr first
      simp only [interpolate, length, ne_eq, not_true_eq_false, if_false]
      refine (evaluates.outcome_bind _).trans ?_
      rw [found]
      rfl

end ProductTree

-----------------------------------------------------------------------------------------
-- Refusals
-----------------------------------------------------------------------------------------

namespace Poly

/-- What interpolation refuses: no points at all, else a wrong number of values, else repeated
points, of which it names the first repeat.
-/
inductive Refuses {α : Type} (points values : List α) : PolyError → Prop
  | empty (none : points = []) : Refuses points values .emptyInterpolation
  | mismatch (some : points ≠ []) (different : points.length ≠ values.length)
    : Refuses points values (.lengthMismatch points.length values.length)
  | repeated (some : points ≠ []) (same : points.length = values.length) {position : Nat}
    (first : IsFirstRepeat points position)
    : Refuses points values (.duplicateNode position)

namespace Refuses

variable {α : Type} {points values : List α}

/-- Each input is refused for one reason. -/
theorem unique {first second : PolyError} (left : Refuses points values first)
    (right : Refuses points values second)
    : first = second := by
  cases left with
  | empty none =>
      cases right with
      | empty _ => rfl
      | mismatch some _ => exact absurd none some
      | repeated some _ _ => exact absurd none some
  | mismatch some different =>
      cases right with
      | empty none => exact absurd none some
      | mismatch _ _ => rfl
      | repeated _ same _ => exact absurd same different
  | repeated some same found =>
      cases right with
      | empty none => exact absurd none some
      | mismatch _ different => exact absurd same different
      | repeated _ _ other => rw [IsLeast.unique found other]

/-- Over different points with as many values nothing is refused. -/
theorem not_answered {error : PolyError} (refuses : Refuses points values error)
    : ¬ (points ≠ [] ∧ points.length = values.length ∧ points.Nodup) := by
  rintro ⟨nonempty, length, distinct⟩
  cases refuses with
  | empty none => exact nonempty none
  | mismatch _ different => exact different length
  | repeated _ _ first => exact (exists_isFirstRepeat_iff points).mp ⟨_, first⟩ distinct

end Refuses

/-- The run fails with what interpolation refuses and with nothing else, and otherwise it yields a
polynomial.
-/
structure RefusesExactly (points values : List F) (run : Kernel (Poly F)) : Prop where
  fails_iff
    : ∀ fault, run.Fails fault ↔ ∃ error, fault = .refused error ∧ Refuses points values error
  yields_iff
    : (∃ p, run.Yields p) ↔ points ≠ [] ∧ points.length = values.length ∧ points.Nodup

namespace RefusesExactly

variable {points values : List F} {run other : Kernel (Poly F)}

/-- A refusal that is due settles the run. -/
theorem of_fails {error : PolyError} (fails : run.Fails (.refused error))
    (refuses : Refuses points values error)
    : RefusesExactly points values run where
  fails_iff fault := by
    constructor
    · intro found
      exact ⟨error, found.unique fails, refuses⟩
    · rintro ⟨also, rfl, found⟩
      rwa [found.unique refuses]
  yields_iff := by
    constructor
    · rintro ⟨p, yields⟩
      exact absurd fails (yields.not_fails _)
    · exact fun answered => absurd answered refuses.not_answered

/-- Where nothing is to be refused, a value settles the run. -/
theorem of_yields {p : Poly F} (yields : run.Yields p) (nonempty : points ≠ [])
    (length : points.length = values.length) (distinct : points.Nodup)
    : RefusesExactly points values run where
  fails_iff fault := by
    constructor
    · exact fun found => absurd found (yields.not_fails fault)
    · rintro ⟨error, _, refuses⟩
      exact absurd ⟨nonempty, length, distinct⟩ refuses.not_answered
  yields_iff := iff_of_true ⟨p, yields⟩ ⟨nonempty, length, distinct⟩

/-- Only the outcome of the run counts. -/
theorem of_outcome_eq (same : run.outcome = other.outcome)
    (exact : RefusesExactly points values other)
    : RefusesExactly points values run where
  fails_iff fault := by
    rw [Logged.Fails, same]
    exact exact.fails_iff fault
  yields_iff := by
    simp only [Logged.Yields, same]
    exact exact.yields_iff

end RefusesExactly

end Poly

variable [ExactKernels F] [DecidableEq F]

/-- A tree refuses exactly what is to be refused over its points, by the cases of the refusals. -/
theorem ProductTree.WellFormed.interpolate_refusesExactly {tree : ProductTree F}
    (wellFormed : tree.WellFormed) (values : List F)
    : Poly.RefusesExactly tree.points values (tree.interpolate values) := by
  by_cases empty : tree.points = []
  · obtain ⟨points, config, root⟩ := tree
    cases root with
    | none => exact .of_fails (Logged.fails_fail _) (.empty empty)
    | some root =>
        obtain ⟨same, _⟩ := wellFormed
        exact absurd (same.trans empty) root.points_ne_nil
  by_cases length : tree.points.length = values.length
  · by_cases distinct : tree.points.Nodup
    · obtain ⟨p, yields, _⟩ := wellFormed.exists_interpolate_yields empty distinct length.symm
      exact .of_yields yields empty length distinct
    · obtain ⟨position, first⟩ := (exists_isFirstRepeat_iff tree.points).mpr distinct
      exact .of_fails (wellFormed.interpolate_fails length.symm first)
        (.repeated empty length first)
  · obtain ⟨points, config, root⟩ := tree
    cases root with
    | none => exact absurd wellFormed empty
    | some root =>
        refine .of_fails ?_ (.mismatch empty length)
        rw [ProductTree.interpolate]
        simp only [ne_eq, Ne.symm length, not_false_eq_true, if_true]
        exact Logged.fails_fail _

theorem ProductTree.build_interpolate_refusesExactly (points values : List F) (config : TreeConfig)
    : Poly.RefusesExactly points values
        (ProductTree.build points config >>= (·.interpolate values)) := by
  obtain ⟨tree, yields, rfl, wellFormed⟩ := exists_build_yields points config
  exact .of_outcome_eq (yields.outcome_bind _) (wellFormed.interpolate_refusesExactly values)

namespace Poly

/-- The same holds without a tree at hand: the lengths are looked at first, then a tree is built. -/
theorem interpolateWith_refusesExactly (points values : List F) (config : TreeConfig)
    : RefusesExactly points values (interpolateWith points values config) := by
  by_cases empty : points = []
  · refine .of_fails ?_ (.empty empty)
    rw [interpolateWith, if_pos (by simpa using empty)]
    exact Logged.fails_fail _
  by_cases length : points.length = values.length
  · rw [interpolateWith_eq empty length.symm]
    exact ProductTree.build_interpolate_refusesExactly points values config
  · refine .of_fails ?_ (.mismatch empty length)
    rw [interpolateWith, if_neg (by simpa using empty), if_pos length]
    exact Logged.fails_fail _

/-- Over every field of the library and for all thresholds, both ways of interpolation refuse a list
without points, else a wrong number of values, else repeated points by the least position whose
point stands earlier. They fail in no other way and on no other input, and it changes nothing if the
points and weights are read at the places of the nodes.
-/
theorem interpolate_refuses_exact {F : Type} [KernelField F] [LibraryField F] [DecidableEq F]
    (points values : List F) (config : TreeConfig)
    : RefusesExactly points values (interpolateWith points values config)
      ∧ RefusesExactly points values
          (ProductTree.build points config >>= (·.interpolate values))
      ∧ (PlacedTree.build points config >>= (·.interpolate values))
        = some <$> (ProductTree.build points config >>= (·.interpolate values)) :=
  ⟨interpolateWith_refusesExactly points values config,
    ProductTree.build_interpolate_refusesExactly points values config,
    PlacedTree.build_interpolate_eq points values config⟩

theorem interpolate_refuses_exact_seventeen
    : (interpolateWith ([1, 2, 2, 1, 5] : List (Residue Modulus.seventeen)) [0, 0, 0, 0, 0]
          ⟨0, 0⟩).Fails (.refused (.duplicateNode 2))
      ∧ (ProductTree.build ([1, 2, 2, 1, 5] : List (Residue Modulus.seventeen)) ⟨0, 0⟩
          >>= (·.interpolate [0, 0, 0, 0, 0])).Fails (.refused (.duplicateNode 2))
      ∧ (interpolateWith ([1, 2] : List (Residue Modulus.seventeen)) [1] ⟨0, 0⟩).Fails
          (.refused (.lengthMismatch 2 1))
      ∧ (ProductTree.build ([] : List (Residue Modulus.seventeen)) ⟨0, 0⟩
          >>= (·.interpolate [1])).Fails (.refused .emptyInterpolation) := by
  have distinct : ([1, 2] : List (Residue Modulus.seventeen)).Nodup := by decide
  have member : (2 : Residue Modulus.seventeen) ∈ [1, 2] := by decide
  have first : IsFirstRepeat ([1, 2, 2, 1, 5] : List (Residue Modulus.seventeen)) 2 :=
    isFirstRepeat_length distinct member [1, 5]
  have repeated := interpolate_refuses_exact
    ([1, 2, 2, 1, 5] : List (Residue Modulus.seventeen)) [0, 0, 0, 0, 0] ⟨0, 0⟩
  have mismatch := interpolate_refuses_exact ([1, 2] : List (Residue Modulus.seventeen)) [1] ⟨0, 0⟩
  have empty := interpolate_refuses_exact ([] : List (Residue Modulus.seventeen)) [1] ⟨0, 0⟩
  have due : Refuses ([1, 2, 2, 1, 5] : List (Residue Modulus.seventeen)) [0, 0, 0, 0, 0]
      (.duplicateNode 2) := .repeated (by simp) (by simp) first
  refine ⟨?_, ?_, ?_, ?_⟩
  · exact (repeated.1.fails_iff _).mpr ⟨_, rfl, due⟩
  · exact (repeated.2.1.fails_iff _).mpr ⟨_, rfl, due⟩
  · exact (mismatch.1.fails_iff _).mpr ⟨_, rfl, .mismatch (by simp) (by simp)⟩
  · exact (empty.2.1.fails_iff _).mpr ⟨_, rfl, .empty rfl⟩

end Poly

end FastAlgebra
