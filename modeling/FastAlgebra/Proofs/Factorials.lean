import Mathlib
import FastAlgebra.Factorials.InPlace
import FastAlgebra.Proofs.CoeffRing
import FastAlgebra.Proofs.Entries
import FastAlgebra.Proofs.Residue.Inverse

/-! The tables of factorials hold the images of the factorials and their inverses. There are tables
exactly where the last factorial is not zero in the field, and then no factorial before it is zero
either, because it is a factor of the last one. The quotients of factorials are those of the
integers.
-/

namespace FastAlgebra.Factorials

section Entries

variable {α : Type}

/-- The values of a function at the numbers up to `n`. -/
def entriesUpTo (f : Nat → α) (n : Nat) : Array α :=
  ((List.range (n + 1)).map f).toArray

theorem size_entriesUpTo (f : Nat → α) (n : Nat) : (entriesUpTo f n).size = n + 1 := by
  simp [entriesUpTo]

theorem getElem?_entriesUpTo (f : Nat → α) {m n : Nat} (h : m ≤ n)
    : (entriesUpTo f n)[m]? = some (f m) :=
  getElem?_toArray_map_range f (Nat.lt_succ_of_le h)

theorem entriesUpTo_succ (f : Nat → α) (n : Nat)
    : entriesUpTo f (n + 1) = (entriesUpTo f n).push (f (n + 1)) :=
  toArray_map_range_succ f (n + 1)

/-- Entries up to `n` are all that an array of that size holds. -/
theorem eq_entriesUpTo {entries : Array α} {f : Nat → α} {n : Nat} (size : entries.size = n + 1)
    (values : ∀ j ≤ n, entries[j]? = some (f j))
    : entries = entriesUpTo f n :=
  eq_toArray_map_range size fun j below => values j (Nat.le_of_lt_succ below)

end Entries

variable {F : Type} [CoeffField F] [LawfulField F] {i m n : Nat}

-----------------------------------------------------------------------------------------
-- Factorials in the field
-----------------------------------------------------------------------------------------

theorem factorial_mul_next (i : Nat)
    : (i.factorial : F) * ((i : F) + 1) = ((i + 1).factorial : F) := by
  rw [Nat.factorial_succ, Nat.cast_mul, Nat.cast_succ, mul_comm]

/-- A factorial that is not zero has no factor that is. -/
theorem factorial_ne_zero_of_le (nonzero : (n.factorial : F) ≠ 0) (h : m ≤ n)
    : (m.factorial : F) ≠ 0 := by
  obtain ⟨c, multiple⟩ := Nat.factorial_dvd_factorial h
  rw [multiple, Nat.cast_mul] at nonzero
  exact left_ne_zero_of_mul nonzero

theorem inverse_mul_next (nonzero : ((i + 1).factorial : F) ≠ 0)
    : ((i + 1).factorial : F)⁻¹ * ((i : F) + 1) = (i.factorial : F)⁻¹ := by
  rw [← factorial_mul_next] at nonzero ⊢
  rw [mul_inv, mul_assoc, inv_mul_cancel₀ (right_ne_zero_of_mul nonzero), mul_one]

-----------------------------------------------------------------------------------------
-- Building the tables
-----------------------------------------------------------------------------------------

/-- The images of the factorials up to `n` in the field, and their inverses. -/
def tablesUpTo (F : Type) [CoeffField F] [LawfulField F] (n : Nat) : Factorials F where
  factorials := entriesUpTo (fun i => (i.factorial : F)) n
  inverses := entriesUpTo (fun i => (i.factorial : F)⁻¹) n

/-- The rows from the factorial of `i` on, by induction on their count. On the way back each row is
handed the inverse of the factorial behind it.
-/
theorem rowsFrom_eq_some {count : Nat} (nonzero : ((i + count).factorial : F) ≠ 0)
    : rowsFrom (i : F) (i.factorial : F) count
      = some ((i.factorial : F)⁻¹, (List.range' i (count + 1)).map fun j =>
          ((j.factorial : F), (j.factorial : F)⁻¹)) := by
  induction count generalizing i with
  | zero =>
      rw [Nat.add_zero] at nonzero
      rw [rowsFrom, LawfulField.inv?_eq_some nonzero]
      rfl
  | succ count ih =>
      have moved : i + (count + 1) = i + 1 + count := by omega
      have next := factorial_ne_zero_of_le nonzero (m := i + 1) (by omega)
      have rest := ih (i := i + 1) (moved ▸ nonzero)
      rw [Nat.cast_succ] at rest
      simp only [rowsFrom, factorial_mul_next, rest, Option.map_some, inverse_mul_next next]
      rfl

/-- Where the last factorial is zero there are no rows, by induction on their count. -/
theorem rowsFrom_eq_none {count : Nat} (zero : ((i + count).factorial : F) = 0)
    : rowsFrom (i : F) (i.factorial : F) count = none := by
  induction count generalizing i with
  | zero =>
      rw [Nat.add_zero] at zero
      rw [rowsFrom, zero, LawfulField.inv?_zero]
      rfl
  | succ count ih =>
      have moved : i + (count + 1) = i + 1 + count := by omega
      have rest := ih (i := i + 1) (moved ▸ zero)
      rw [Nat.cast_succ] at rest
      simp only [rowsFrom, factorial_mul_next, rest]
      rfl

theorem build_eq_ok (nonzero : (n.factorial : F) ≠ 0) : build n = .ok (tablesUpTo F n) := by
  rw [← Nat.zero_add n] at nonzero
  have rows := rowsFrom_eq_some nonzero
  rw [Nat.cast_zero, Nat.factorial_zero, Nat.cast_one, ← List.range_eq_range'] at rows
  rw [build, rows]
  simp [tablesUpTo, entriesUpTo]

theorem build_eq_error (zero : (n.factorial : F) = 0) : build (F := F) n = .error ⟨n⟩ := by
  rw [← Nat.zero_add n] at zero
  have rows := rowsFrom_eq_none zero
  rw [Nat.cast_zero, Nat.factorial_zero, Nat.cast_one] at rows
  rw [build, rows]

-----------------------------------------------------------------------------------------
-- Filling the tables where they stand
-----------------------------------------------------------------------------------------

/-- The way up comes to the factorials and to the number `n`, by induction on it. -/
theorem foldlM_ascend? (n : Nat)
    : (List.range' 1 n).foldlM ascend? (⟨#[1], 0⟩ : Filling F)
      = some ⟨entriesUpTo (fun i => (i.factorial : F)) n, (n : F)⟩ := by
  induction n with
  | zero => simp [entriesUpTo]
  | succ n ih =>
      have before := getElem?_entriesUpTo (fun i => (i.factorial : F)) (Nat.le_refl n)
      rw [List.range'_concat, List.foldlM_append, ih]
      simp [ascend?, Nat.add_comm 1 n, before, factorial_mul_next, entriesUpTo_succ]

/-- A table for the numbers up to `n` holds the inverses of the factorials from `i` on. -/
structure FilledFrom (n i : Nat) (entries : Array F) : Prop where
  size : entries.size = n + 1
  inverse : ∀ j ≤ n, i ≤ j → entries[j]? = some (j.factorial : F)⁻¹

/-- A step down writes the inverse before the last one that was written. -/
theorem FilledFrom.exists_descend?_eq {entries : Array F} (filled : FilledFrom n (i + 1) entries)
    (nonzero : (n.factorial : F) ≠ 0) (within : i < n)
    : ∃ next, descend? ⟨entries, ((i + 1 : Nat) : F)⟩ (i + 1) = some ⟨next, (i : F)⟩
        ∧ FilledFrom n i next := by
  have size := filled.size
  have above := filled.inverse (i + 1) within (Nat.le_refl _)
  have below := inverse_mul_next (factorial_ne_zero_of_le nonzero within)
  refine ⟨entries.setIfInBounds i (i.factorial : F)⁻¹, ?_, ?_, ?_⟩
  · simp only [descend?, above, Option.map_some, Nat.add_sub_cancel, Nat.cast_succ, below,
      add_sub_cancel_right]
  · rw [Array.size_setIfInBounds, size]
  · intro j inside reached
    rw [Array.getElem?_setIfInBounds]
    split
    · rename_i same
      rw [if_pos (by omega), same]
    · exact filled.inverse j inside (by omega)

/-- The way down from `i` fills the table, by induction on `i`. -/
theorem FilledFrom.foldlM_descend? {entries : Array F} (filled : FilledFrom n i entries)
    (nonzero : (n.factorial : F) ≠ 0) (within : i ≤ n)
    : (List.range' 1 i).reverse.foldlM descend? ⟨entries, (i : F)⟩
      = some ⟨entriesUpTo (fun j => (j.factorial : F)⁻¹) n, 0⟩ := by
  induction i generalizing entries with
  | zero =>
      have whole := eq_entriesUpTo (f := fun j => (j.factorial : F)⁻¹) filled.size
        fun j inside => filled.inverse j inside (Nat.zero_le j)
      simp [whole]
  | succ i ih =>
      obtain ⟨next, step, further⟩ := filled.exists_descend?_eq nonzero within
      rw [List.range'_concat, List.reverse_concat, List.foldlM_cons, Nat.one_mul, Nat.add_comm 1 i,
        step]
      exact ih further (by omega)

/-- Filled where they stand, the tables are the same. -/
theorem buildInPlace?_eq (n : Nat) : buildInPlace? n = some (build (F := F) n) := by
  have last := getElem?_entriesUpTo (fun i => (i.factorial : F)) (Nat.le_refl n)
  simp only [buildInPlace?, foldlM_ascend?, Option.bind_eq_bind, Option.bind_some, last]
  by_cases zero : (n.factorial : F) = 0
  · rw [zero, LawfulField.inv?_zero, build_eq_error zero]
  · have start : FilledFrom n n
        ((Array.replicate (n + 1) (0 : F)).setIfInBounds n (n.factorial : F)⁻¹) := by
      refine ⟨by simp, ?_⟩
      intro j inside reached
      obtain rfl : j = n := by omega
      simp
    rw [LawfulField.inv?_eq_some zero, build_eq_ok zero]
    simp only [start.foldlM_descend? zero (Nat.le_refl n), Option.bind_some]
    rfl

-----------------------------------------------------------------------------------------
-- Quotients of factorials
-----------------------------------------------------------------------------------------

theorem factorial?_tablesUpTo (h : m ≤ n)
    : (tablesUpTo F n).factorial? m = some (m.factorial : F) :=
  getElem?_entriesUpTo _ h

theorem inverse?_tablesUpTo (h : m ≤ n)
    : (tablesUpTo F n).inverse? m = some (m.factorial : F)⁻¹ :=
  getElem?_entriesUpTo _ h

/-- In the field a binomial coefficient is the quotient that it is among the integers. -/
theorem binomial?_tablesUpTo (nonzero : (n.factorial : F) ≠ 0) (h : m ≤ n) (k : Nat)
    : (tablesUpTo F n).binomial? m k = some (m.choose k : F) := by
  unfold binomial?
  split
  · rename_i above
    rw [Nat.choose_eq_zero_of_lt above, Nat.cast_zero]
  · rename_i within
    rw [Nat.not_lt] at within
    have part := factorial_ne_zero_of_le nonzero (within.trans h)
    have rest := factorial_ne_zero_of_le nonzero ((Nat.sub_le m k).trans h)
    have whole : ((m.choose k * k.factorial * (m - k).factorial : Nat) : F) = m.factorial := by
      rw [Nat.choose_mul_factorial_mul_factorial within]
    push_cast at whole
    simp only [factorial?_tablesUpTo h, inverse?_tablesUpTo (within.trans h),
      inverse?_tablesUpTo ((Nat.sub_le m k).trans h), Option.bind_eq_bind, Option.bind_some,
      ← whole]
    rw [mul_right_comm, mul_inv_cancel_right₀ rest, mul_inv_cancel_right₀ part]

/-- The product of the factorials of some numbers divides the factorial of their sum, by induction
on the numbers.
-/
theorem prod_factorial_dvd (parts : List Nat)
    : (parts.map Nat.factorial).prod ∣ parts.sum.factorial := by
  induction parts with
  | nil => simp
  | cons k rest ih =>
      rw [List.map_cons, List.prod_cons, List.sum_cons]
      exact (mul_dvd_mul_left _ ih).trans (Nat.factorial_mul_factorial_dvd_factorial_add k rest.sum)

/-- Each part divides by its factorial, by induction on the parts. -/
theorem foldlM_inverse? (value : F) {parts : List Nat} (within : ∀ k ∈ parts, k ≤ n)
    : parts.foldlM (fun value k => (value * ·) <$> (tablesUpTo F n).inverse? k) value
      = some (value * ((parts.map Nat.factorial).prod : F)⁻¹) := by
  induction parts generalizing value with
  | nil => simp
  | cons k rest ih =>
      rw [List.foldlM_cons, inverse?_tablesUpTo (within k List.mem_cons_self)]
      refine (ih _ fun l member => within l (List.mem_cons_of_mem k member)).trans ?_
      rw [List.map_cons, List.prod_cons, Nat.cast_mul, mul_inv, mul_assoc]

/-- In the field a multinomial coefficient is the quotient that it is among the integers. -/
theorem multinomial?_tablesUpTo (nonzero : (n.factorial : F) ≠ 0) {parts : List Nat}
    (h : parts.sum ≤ n)
    : (tablesUpTo F n).multinomial? parts
      = some ((parts.sum.factorial / (parts.map Nat.factorial).prod : Nat) : F) := by
  obtain ⟨c, multiple⟩ := prod_factorial_dvd parts
  have whole := factorial_ne_zero_of_le nonzero h
  rw [multiple, Nat.cast_mul] at whole
  have within : ∀ k ∈ parts, k ≤ n := fun k member => (List.le_sum_of_mem member).trans h
  have positive : 0 < (parts.map Nat.factorial).prod := by
    apply Nat.pos_of_ne_zero
    intro zero
    rw [zero, Nat.cast_zero, zero_mul] at whole
    exact whole rfl
  rw [multinomial?, ← List.sum_eq_foldl, factorial?_tablesUpTo h, Option.bind_eq_bind,
    Option.bind_some, foldlM_inverse? _ within, multiple, Nat.mul_div_cancel_left c positive,
    Nat.cast_mul, mul_comm, inv_mul_cancel_left₀ (left_ne_zero_of_mul whole)]

-----------------------------------------------------------------------------------------
-- Tables that count
-----------------------------------------------------------------------------------------

/-- The answers of the tables for the numbers up to `n` are the images of those of the integers. -/
structure CountsUpTo (n : Nat) (tables : Factorials F) : Prop where
  max_eq : tables.max = n
  factorial : ∀ m ≤ n, tables.factorial? m = some (m.factorial : F)
  inverse : ∀ m ≤ n, ∃ inverse,
    tables.inverse? m = some inverse ∧ (m.factorial : F) * inverse = 1
  binomial : ∀ m ≤ n, ∀ k, tables.binomial? m k = some (m.choose k : F)
  multinomial : ∀ parts : List Nat, parts.sum ≤ n →
    (parts.map Nat.factorial).prod ∣ parts.sum.factorial
      ∧ tables.multinomial? parts
          = some ((parts.sum.factorial / (parts.map Nat.factorial).prod : Nat) : F)

namespace CountsUpTo

variable {tables : Factorials F} {k : Nat}

theorem binomial_of_lt (counts : CountsUpTo n tables) (h : m ≤ n) (above : m < k)
    : tables.binomial? m k = some 0 := by
  rw [counts.binomial m h k, Nat.choose_eq_zero_of_lt above, Nat.cast_zero]

theorem pascal (counts : CountsUpTo n tables) (h : m < n) (k : Nat)
    : ∃ left right,
        tables.binomial? m k = some left
        ∧ tables.binomial? m (k + 1) = some right
        ∧ tables.binomial? (m + 1) (k + 1) = some (left + right) := by
  refine ⟨m.choose k, m.choose (k + 1), counts.binomial m h.le k,
    counts.binomial m h.le (k + 1), ?_⟩
  rw [counts.binomial (m + 1) h (k + 1), Nat.choose_succ_succ', Nat.cast_add]

theorem binomial_sub (counts : CountsUpTo n tables) (h : m ≤ n) (within : k ≤ m)
    : tables.binomial? m (m - k) = tables.binomial? m k := by
  rw [counts.binomial m h, counts.binomial m h, Nat.choose_symm within]

end CountsUpTo

theorem countsUpTo_tablesUpTo (nonzero : (n.factorial : F) ≠ 0)
    : CountsUpTo n (tablesUpTo F n) where
  max_eq := by
    rw [max, tablesUpTo, size_entriesUpTo, Nat.add_sub_cancel]
  factorial _ h := factorial?_tablesUpTo h
  inverse _ h := ⟨_, inverse?_tablesUpTo h, mul_inv_cancel₀ (factorial_ne_zero_of_le nonzero h)⟩
  binomial _ h k := binomial?_tablesUpTo nonzero h k
  multinomial parts h := ⟨prod_factorial_dvd parts, multinomial?_tablesUpTo nonzero h⟩

/-- There are tables up to `n` exactly where its factorial is not zero, and what they answer are the
images of the integers, with the laws that those have.
-/
theorem build_exact {F : Type} [CoeffField F] [LawfulField F] (n : Nat)
    : ((∃ tables : Factorials F, build n = .ok tables) ↔ (n.factorial : F) ≠ 0)
      ∧ (∀ error, build (F := F) n = .error error ↔ (n.factorial : F) = 0 ∧ error = ⟨n⟩)
      ∧ buildInPlace? n = some (build (F := F) n)
      ∧ ∀ tables : Factorials F, build n = .ok tables →
          CountsUpTo n tables
          ∧ (∀ m ≤ n, ∀ k, m < k → tables.binomial? m k = some 0)
          ∧ (∀ m < n, ∀ k, ∃ left right,
              tables.binomial? m k = some left
              ∧ tables.binomial? m (k + 1) = some right
              ∧ tables.binomial? (m + 1) (k + 1) = some (left + right))
          ∧ ∀ m ≤ n, ∀ k ≤ m, tables.binomial? m (m - k) = tables.binomial? m k := by
  by_cases zero : (n.factorial : F) = 0
  · have refused := build_eq_error zero
    simp [refused, zero, buildInPlace?_eq, eq_comm]
  · have built := build_eq_ok zero
    refine ⟨by simp [built, zero], by simp [built, zero], buildInPlace?_eq n, ?_⟩
    intro tables found
    obtain rfl : tablesUpTo F n = tables := by simpa [built] using found
    have counts := countsUpTo_tablesUpTo zero
    exact ⟨counts, fun m h k => counts.binomial_of_lt h, fun m h => counts.pascal h,
      fun m h k => counts.binomial_sub h⟩

/-- Modulo seventeen the factorials of the numbers up to sixteen have inverses, the next has none.
-/
theorem build_exact_seventeen
    : (∃ tables : Factorials (Residue Modulus.seventeen),
        build 16 = .ok tables
        ∧ tables.binomial? 16 8 = some (12870 : Nat)
        ∧ tables.multinomial? [5, 5, 6] = some (2018016 : Nat))
      ∧ build (F := Residue Modulus.seventeen) 17 = .error ⟨17⟩ := by
  have seventeen : ringChar (Residue Modulus.seventeen) = 17 := Residue.ringChar_eq
  have nonzero : ((16).factorial : Residue Modulus.seventeen) ≠ 0 := by
    rw [ne_eq, ringChar.spec, seventeen]
    decide
  have zero : ((17).factorial : Residue Modulus.seventeen) = 0 := by
    rw [ringChar.spec, seventeen]
    decide
  obtain ⟨exists_iff, -, -, answers⟩ := build_exact (F := Residue Modulus.seventeen) 16
  obtain ⟨-, error_iff, -⟩ := build_exact (F := Residue Modulus.seventeen) 17
  obtain ⟨tables, built⟩ := exists_iff.mpr nonzero
  obtain ⟨counts, -⟩ := answers tables built
  obtain ⟨-, quotient⟩ := counts.multinomial [5, 5, 6] (by decide)
  refine ⟨⟨tables, built, ?_, ?_⟩, (error_iff ⟨17⟩).mpr ⟨zero, rfl⟩⟩
  · simpa [Nat.choose] using counts.binomial 16 (Nat.le_refl 16) 8
  · simpa [Nat.factorial] using quotient

end FastAlgebra.Factorials
