import Mathlib
import FastAlgebra.Proofs.Product
import FastAlgebra.Proofs.Transform.Tables

/-! The fast transform computes the sums that define it, for every dyadic length that its tables
cover, and the transform of a mirrored list of values brings back the polynomial that has them.
Products of lists by transforms are therefore exact.
-/

namespace FastAlgebra

open CoeffList Polynomial

-- The operations of the scalars and those of the ring agree by the laws of `LawfulScalar`. The
-- statements name the ring operations only through definitions over rings.
set_option linter.overlappingInstances false

namespace Plan

variable {T : Type} [TransformScalar T]

-----------------------------------------------------------------------------------------
-- The transform
-----------------------------------------------------------------------------------------

/-- The levels keep the length, by induction on them. -/
theorem size_foldl_butterflies (roots : Array T) (levels : List Nat) (source : Array T)
    : (levels.foldl (butterflies roots) source).size = source.size := by
  induction levels generalizing source with
  | nil => rfl
  | cons k rest ih => rw [List.foldl_cons, ih, butterflies, Array.size_ofFn]

theorem length_transform (plan : Plan T) (a : List T)
    : (plan.transform a).length = a.length := by
  rw [transform, Array.length_toList, size_foldl_butterflies, Array.size_ofFn, List.size_toArray]

variable [CommRing T] [LawfulScalar T]

/-- A level of butterflies joins the halves of its blocks. -/
theorem entry_butterflies (roots a : Array T) (k : Nat) {p : Nat} (h : p < a.size)
    : entry (butterflies roots a k) p = joinHalf (entry roots) k (entry a) p := by
  rw [entry, Array.getD_eq_getD_getElem?, butterflies, Array.getElem?_ofFn, dif_pos h,
    Option.getD_some, LawfulScalar.laws.zero_eq, LawfulScalar.laws.add_eq,
    LawfulScalar.laws.sub_eq, LawfulScalar.laws.mul_eq]
  rfl

namespace Tables

variable {plan : Plan T} {t : Nat}

/-- The shifted table of reversed indices reverses the digits of every shorter length. -/
theorem shifted_reversal (tables : plan.Tables t) {s i : Nat} (covered : s ≤ t) (h : i < 2 ^ s)
    : plan.reversal.getD i 0 >>> (plan.reversal.size / 2 ^ s).log2 = reverseDigits s i := by
  obtain ⟨u, rfl⟩ := Nat.exists_eq_add_of_le covered
  have inside : i < 2 ^ (s + u) := h.trans_le (Nat.pow_le_pow_right (by omega) (by omega))
  rw [tables.size, pow_add, Nat.mul_div_cancel_left _ (Nat.two_pow_pos s), Nat.log2_two_pow,
    Array.getD_eq_getD_getElem?, tables.reversed i inside, Option.getD_some,
    reverseDigits_add h, Nat.shiftRight_eq_div_pow, Nat.mul_div_cancel _ (Nat.two_pow_pos u)]

/-- What the levels hold on the way, by induction along the doublings of the block length. -/
private theorem foldl_butterflies (tables : plan.Tables t) {a : Nat → T} {source : Array T}
    {s : Nat} (covered : s ≤ t) (supported : s ≤ LawfulScalar.levels T)
    (size : source.size = 2 ^ s) (gathered : ∀ p < 2 ^ s, entry source p = a (reverseDigits s p))
    : ((doublings 1 (2 ^ s)).foldl (butterflies plan.roots) source).size = 2 ^ s
      ∧ ∀ i < 2 ^ s,
          entry ((doublings 1 (2 ^ s)).foldl (butterflies plan.roots) source) i
            = fourier (LawfulScalar.root s) (2 ^ s) a i := by
  -- Before the level with blocks of length `2 ^ r` there are `2 ^ u` of them, all joined.
  obtain ⟨last, reached, r, u, rfl, levels, full, joined⟩ :=
    foldl_doublings (f := butterflies plan.roots) (n := 2 ^ s)
      (motive := fun k b => ∃ r u, k = 2 ^ r ∧ r + u = s ∧ b.size = 2 ^ s
        ∧ Joined LawfulScalar.root a r u (entry b))
      Nat.one_pos ⟨0, s, rfl, Nat.zero_add s, size, joined_zero gathered⟩
      (by
        rintro _ b _ below ⟨r, u, rfl, levels, full, joined⟩
        have smaller : r < s := (Nat.pow_lt_pow_iff_right (by omega)).mp below
        obtain ⟨u, rfl⟩ : ∃ v, u = v + 1 := ⟨u - 1, by omega⟩
        refine ⟨r + 1, u, (pow_succ' 2 r).symm, by omega, ?_, ?_⟩
        · rw [butterflies, Array.size_ofFn, full]
        · have weights : ∀ j < 2 ^ r,
              entry plan.roots (2 ^ r + j) = LawfulScalar.root (r + 1) ^ j := by
            intro j within
            rw [entry, Array.getD_eq_getD_getElem?, tables.roots.power r (by omega) j within,
              Option.getD_some]
          apply (joined.next LawfulScalar.laws.roots (by omega) weights).congr
          intro p within
          apply entry_butterflies
          rwa [full, ← levels, ← Nat.succ_add_eq_add_succ])
  have top : s ≤ r := (Nat.pow_le_pow_iff_right (by omega)).mp reached
  obtain rfl : r = s := by omega
  obtain rfl : u = 0 := by omega
  exact ⟨full, fun i below => joined.eq_fourier below⟩

/-- The fast transform is the transform, whatever longer lengths the tables cover. -/
theorem transform_eq (tables : plan.Tables t) {a : List T} {s : Nat} (length : a.length = 2 ^ s)
    (covered : s ≤ t) (supported : s ≤ LawfulScalar.levels T)
    : plan.transform a = spectrum (LawfulScalar.root s) (2 ^ s) a := by
  obtain ⟨gathered, same⟩ : ∃ gathered : Array T, gathered
      = Array.ofFn fun i : Fin a.toArray.size =>
          entry a.toArray
            (plan.reversal.getD i 0 >>> (plan.reversal.size / a.toArray.size).log2) :=
    ⟨_, rfl⟩
  have form : plan.transform a
      = ((doublings 1 (2 ^ s)).foldl (butterflies plan.roots) gathered).toList := by
    rw [same, ← length, transform, LawfulScalar.laws.zero_eq, ← List.size_toArray]
    rfl
  have size : gathered.size = 2 ^ s := by
    rw [same, Array.size_ofFn, List.size_toArray, length]
  have reversed : ∀ p < 2 ^ s, entry gathered p = entry a.toArray (reverseDigits s p) := by
    intro p below
    have inside : p < a.toArray.size := by rwa [List.size_toArray, length]
    rw [entry, same, Array.getD_eq_getD_getElem?, Array.getElem?_ofFn, dif_pos inside,
      Option.getD_some]
    simp only [List.size_toArray, length]
    rw [tables.shifted_reversal covered below]
  obtain ⟨full, entries⟩ := tables.foldl_butterflies covered supported size reversed
  rw [form]
  exact (spectrum_eq full entries).symm

/-- The transform of a list that is padded to the length holds its values at the powers of the
root.
-/
theorem transform_values (tables : plan.Tables t) {a : List T} {s : Nat} (covered : s ≤ t)
    (supported : s ≤ LawfulScalar.levels T) (fits : a.length ≤ 2 ^ s)
    : Values (LawfulScalar.root s) (2 ^ s) (toPolynomial a)
        (plan.transform (@resize T TransformScalar.toZero (2 ^ s) a)) := by
  rw [tables.transform_eq (length_resize _ _) covered supported, LawfulScalar.laws.zero_eq]
  exact Values.spectrum fits

/-- Values over the length, mirrored, are transformed into the coefficients of the polynomial that
has them.
-/
theorem toPolynomial_transform_reflect (tables : plan.Tables t) {image : List T} {p : T[X]}
    {s : Nat} (covered : s ≤ t) (supported : s ≤ LawfulScalar.levels T)
    (small : p.degree < (2 ^ s : Nat))
    (values : Values (LawfulScalar.root s) (2 ^ s)
      (p * C (TransformScalar.inverseLength (2 ^ s))) image)
    : toPolynomial (plan.transform (reflect image)) = p := by
  rw [tables.transform_eq (by rw [length_reflect, values.length]) covered supported]
  exact Values.spectrum_reflect LawfulScalar.laws.roots supported
    (LawfulScalar.laws.inverseLength_unscales s supported) small values

-----------------------------------------------------------------------------------------
-- Products
-----------------------------------------------------------------------------------------

/-- A supported length can be prepared. The tables then cover it. -/
theorem exists_prepare_yields (tables : plan.Tables t) {s : Nat}
    (supported : s ≤ LawfulScalar.levels T)
    : ∃ u next, s ≤ u ∧ (plan.prepare (2 ^ s)).Yields next ∧ next.Tables u := by
  unfold prepare
  rw [if_neg (by simp [isDyadic_two_pow])]
  split
  · rename_i trivial
    have single : s = 0 := by
      rw [← Nat.pow_zero 2, Nat.pow_le_pow_iff_right (by omega)] at trivial
      omega
    exact ⟨t, plan, by omega, Logged.yields_pure plan, tables⟩
  · exact tables.exists_reserve_yields supported

/-- Any dyadic length that the scalars support is transformed exactly. -/
theorem exists_forward_yields (tables : plan.Tables t) {a : List T} {s : Nat}
    (length : a.length = 2 ^ s) (supported : s ≤ LawfulScalar.levels T)
    : ∃ next, (plan.forward a).Yields (next, spectrum (LawfulScalar.root s) (2 ^ s) a) := by
  obtain ⟨u, next, covered, prepared, larger⟩ := tables.exists_prepare_yields supported
  refine ⟨next, ?_⟩
  rw [← larger.transform_eq length covered supported, forward, length]
  exact prepared.bind (Logged.yields_pure _)

/-- A product whose padded length the scalars support is exact: the transform is long enough for
nothing to wrap around.
-/
theorem exists_convolve_yields (tables : plan.Tables t) (a b : List T)
    (supported : (a.length + b.length - 1).nextPowerOfTwo ≤ TransformScalar.maxLength T)
    : ∃ next, (plan.convolve a b).Yields (next, cauchyProduct a b) := by
  unfold convolve
  split
  · rename_i empty
    rw [cauchyProduct_eq_nil ((isEmpty_or_isEmpty_iff a b).mp empty)]
    exact ⟨plan, Logged.yields_pure _⟩
  · rename_i nonempty
    rw [isEmpty_or_isEmpty_iff, not_or] at nonempty
    obtain ⟨s, padded⟩ := exists_nextPowerOfTwo_eq (a.length + b.length - 1)
    have reached := le_nextPowerOfTwo (a.length + b.length - 1)
    rw [padded] at supported reached
    rw [LawfulScalar.laws.maxLength_eq, Nat.pow_le_pow_iff_right (by omega)] at supported
    obtain ⟨u, next, covered, prepared, larger⟩ := tables.exists_prepare_yields supported
    refine ⟨next, ?_⟩
    simp only [padded]
    refine prepared.bind ?_
    have someLeft := List.length_pos_iff.mpr nonempty.1
    have someRight := List.length_pos_iff.mpr nonempty.2
    have fitsLeft : a.length ≤ 2 ^ s := by omega
    have fitsRight : b.length ≤ 2 ^ s := by omega
    have small := degree_mul_toPolynomial_lt a b
    have values := (larger.transform_values covered supported fitsLeft).mul
      (larger.transform_values covered supported fitsRight)
      (TransformScalar.inverseLength (2 ^ s))
    have product := larger.toPolynomial_transform_reflect covered supported
      (small.trans_le (by exact_mod_cast reached)) values
    have length := (next.length_transform _).trans ((length_reflect _).trans values.length)
    rw [Logged.yields_pure_iff, LawfulScalar.laws.mul_eq]
    congr 1
    apply eq_schoolbook nonempty.1 nonempty.2
    · rw [List.length_take, length, Nat.min_eq_left reached]
    · rw [toPolynomial_take (product ▸ small), product]

end Tables

/-- A new plan for a supported length covers it. -/
theorem exists_withCapacity_yields {s : Nat} (supported : s ≤ LawfulScalar.levels T)
    : ∃ t plan, s ≤ t ∧ (withCapacity (max (2 ^ s) 2) : Kernel (Plan T)).Yields plan
        ∧ plan.Tables t := by
  rcases Nat.eq_zero_or_pos s with rfl | positive
  · refine ⟨1, base, by omega, ?_, tables_base⟩
    rw [withCapacity, reserve, if_pos (by simp [tables_base.capacity_eq])]
    exact Logged.yields_pure _
  · have large : 2 ^ 1 ≤ 2 ^ s := Nat.pow_le_pow_right (by omega) positive
    rw [Nat.max_eq_left (by omega)]
    obtain ⟨t, plan, covered, reserved, tables⟩ := tables_base.exists_reserve_yields supported
    exact ⟨t, plan, covered, reserved, tables⟩

end Plan

/-- The product with a plan of its own is exact. -/
theorem Transform.convolve_yields {T : Type} [TransformScalar T] [CommRing T] [LawfulScalar T]
    (a b : List T)
    (supported : (a.length + b.length - 1).nextPowerOfTwo ≤ TransformScalar.maxLength T)
    : (Transform.convolve a b).Yields (cauchyProduct a b) := by
  unfold Transform.convolve
  split
  · rename_i empty
    rw [cauchyProduct_eq_nil ((isEmpty_or_isEmpty_iff a b).mp empty)]
    exact Logged.yields_pure _
  · obtain ⟨s, padded⟩ := exists_nextPowerOfTwo_eq (a.length + b.length - 1)
    have exponent := supported
    rw [padded, LawfulScalar.laws.maxLength_eq, Nat.pow_le_pow_iff_right (by omega)] at exponent
    obtain ⟨t, plan, _, reserved, tables⟩ := Plan.exists_withCapacity_yields exponent
    obtain ⟨next, product⟩ := tables.exists_convolve_yields a b supported
    rw [padded]
    exact reserved.bind (product.map Prod.snd)

-----------------------------------------------------------------------------------------
-- Residues modulo a prime
-----------------------------------------------------------------------------------------

/-- Whatever was asked of a plan before, failed requests included, a transform of a supported
length yields the sums of the entries weighted by the powers of the root of that order. The answer
is one list for all histories.
-/
theorem Plan.forward_afterAll_yields {m : Modulus} [Fact m.toNat.Prime]
    {a : List (Residue m)} {s : Nat} (length : a.length = 2 ^ s) (supported : s ≤ m.twoAdicity)
    : ∃ w b,
        Residue.rootOfUnity? a.length = some w
          ∧ (a.length = 1 → w = 1)
          ∧ b.length = a.length
          ∧ (∀ i < a.length,
              CoeffList.coeff b i
                = ∑ j ∈ Finset.range a.length, CoeffList.coeff a j * w ^ (i * j))
          ∧ ∀ history : List (PlanRequest (Residue m)),
              ∃ next, ((afterAll history).forward a).Yields (next, b) := by
  refine ⟨Residue.root m s, spectrum (Residue.root m s) (2 ^ s) a, ?_, ?_, ?_, ?_, ?_⟩
  · rw [length, Residue.rootOfUnity?_two_pow supported]
  · intro single
    have first : s = 0 := by
      rw [length] at single
      simpa using single
    rw [first, Residue.root_zero]
  · rw [length, length_spectrum]
  · intro i below
    rw [length] at below ⊢
    exact coeff_spectrum _ _ below
  · intro history
    obtain ⟨t, tables⟩ := exists_tables_afterAll history
    exact tables.exists_forward_yields length supported

theorem Plan.forward_afterAll_yields_seventeen
    : 2 ≤ Modulus.seventeen.twoAdicity
      ∧ ∃ w b, (Residue.rootOfUnity? 4 : Option (Residue Modulus.seventeen)) = some w
          ∧ b.length = 4
          ∧ CoeffList.coeff b 3
              = ∑ j ∈ Finset.range 4, CoeffList.coeff [5, 6, 7, 8] j * w ^ (3 * j)
          ∧ ∀ history : List (PlanRequest (Residue Modulus.seventeen)),
              ∃ next, ((afterAll history).forward [5, 6, 7, 8]).Yields (next, b) := by
  have supported : 2 ≤ Modulus.seventeen.twoAdicity := by
    have adicity : Modulus.seventeen.twoAdicity = factorsOfTwo 16 := rfl
    rw [adicity]
    simp [factorsOfTwo]
  obtain ⟨w, b, root, _, length, entries, answers⟩ :=
    forward_afterAll_yields (a := [5, 6, 7, 8]) (s := 2) rfl supported
  exact ⟨supported, w, b, root, length, entries 3 (by simp), answers⟩

end FastAlgebra
