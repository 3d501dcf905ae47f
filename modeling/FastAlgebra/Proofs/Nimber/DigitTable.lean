import Mathlib
import FastAlgebra.Nimber.DigitTable
import FastAlgebra.Proofs.Nimber.FermatPower

/-! The table by the digits of the exponents is the table by levels. What one product asks for has a
lesser part of the exponents in common, and while the digits are gone through, the squares times the
shift are the product of the two powers as far as their digits are taken into account.
-/

namespace FastAlgebra

namespace DigitTable

open Nimber

-----------------------------------------------------------------------------------------
-- Runs that keep what is found right
-----------------------------------------------------------------------------------------

namespace Found

theorem exists_read_eq (found : Found) {i j : Nat} (li : i < 64) (lj : j < 64)
    : ∃ place, found.read i j = some place :=
  ⟨_, dif_pos ⟨li, lj⟩⟩

theorem exists_write_eq (found : Found) {i j : Nat} (li : i < 64) (lj : j < 64)
    (product : UInt64)
    : ∃ next, found.write i j product = some next :=
  ⟨_, dif_pos ⟨li, lj⟩⟩

/-- Only the place that is written changes. -/
theorem read_of_write_eq {found next : Found} {i j : Nat} {product : UInt64}
    (written : found.write i j product = some next) (a b : Nat)
    : next.read a b = if a = i ∧ b = j then some (some product) else found.read a b := by
  rw [write] at written
  split at written
  · rw [← Option.some.inj written]
    simp only [read, Vector.getElem_set]
    grind
  · exact nomatch written

/-- Whatever is found is the entry of the table. -/
def Valid (found : Found) : Prop :=
  ∀ i j product, found.read i j = some (some product) → product = nimTableEntry i j

theorem valid_nothing : nothing.Valid := by
  intro i j product found
  rw [read] at found
  split at found
  · simp [nothing] at found
  · exact nomatch found

theorem Valid.write {found next : Found} {i j : Nat} (valid : found.Valid)
    (written : found.write i j (nimTableEntry i j) = some next)
    : next.Valid := by
  intro a b product read
  rw [read_of_write_eq written] at read
  split at read
  · rename_i place
    rw [place.1, place.2]
    exact (Option.some.inj (Option.some.inj read)).symm
  · exact valid a b product read

end Found

/-- The run ends with the value, and what is found stays right. -/
def Computes {α : Type} (run : Run α) (value : α) : Prop :=
  ∀ found : Found, found.Valid → ∃ next, run.run found = some (value, next) ∧ next.Valid

namespace Computes

variable {α β : Type}

theorem pure (value : α) : Computes (Pure.pure value) value :=
  fun found valid => ⟨found, rfl, valid⟩

theorem bind {first : Run α} {next : α → Run β} {middle : α} {last : β}
    (left : Computes first middle) (right : Computes (next middle) last)
    : Computes (first >>= next) last := by
  intro found valid
  obtain ⟨between, ran, still⟩ := left found valid
  obtain ⟨after, rest, done⟩ := right between still
  refine ⟨after, ?_, done⟩
  rw [StateT.run_bind, ran, Option.bind_eq_bind, Option.bind_some, rest]

/-- A loop of runs computes the loop of their values, by induction on the list. -/
theorem foldlM {f : β → α → Run β} {g : β → α → β} {entries : List α}
    (step : ∀ value, ∀ entry ∈ entries, Computes (f value entry) (g value entry)) (start : β)
    : Computes (entries.foldlM f start) (entries.foldl g start) := by
  induction entries generalizing start with
  | nil => exact pure start
  | cons entry rest ih =>
      have later : ∀ value, ∀ other ∈ rest, Computes (f value other) (g value other) :=
        fun value other member => step value other (List.mem_cons_of_mem entry member)
      rw [List.foldlM_cons]
      exact (step start entry List.mem_cons_self).bind (ih later (g start entry))

/-- A list of runs computes the list of their values, by induction on it. -/
theorem mapM_list {f : α → Run β} {g : α → β} {entries : List α}
    (each : ∀ entry ∈ entries, Computes (f entry) (g entry))
    : Computes (entries.mapM f) (entries.map g) := by
  induction entries with
  | nil => exact pure []
  | cons entry rest ih =>
      have later := ih fun other member => each other (List.mem_cons_of_mem entry member)
      rw [List.mapM_cons]
      exact (each entry List.mem_cons_self).bind (later.bind (pure _))

theorem mapM {f : α → Run β} {g : α → β} {entries : Array α}
    (each : ∀ entry ∈ entries, Computes (f entry) (g entry))
    : Computes (entries.mapM f) (entries.map g) := by
  have list : Computes (entries.toList.mapM f) (entries.toList.map g) :=
    mapM_list fun entry member => each entry (Array.mem_toList_iff.mp member)
  have whole : entries.map g = (entries.toList.map g).toArray := by
    rw [← Array.toList_map, Array.toArray_toList]
  rw [Array.mapM_eq_mapM_toList, map_eq_bind_pure_comp, whole]
  exact list.bind (pure _)

end Computes

theorem computes_shifted {places : Nat} (word : UInt64) (inside : places < 64)
    : Computes (shifted word places) (word <<< UInt64.ofNat places) := by
  rw [shifted, if_pos inside]
  exact .pure _

/-- What is found already is what the run would find. -/
theorem computes_recallOr {i j : Nat} (li : i < 64) (lj : j < 64) {run : Run UInt64}
    (computes : Computes run (nimTableEntry i j))
    : Computes (recallOr i j run) (nimTableEntry i j) := by
  intro found valid
  obtain ⟨place, read⟩ := found.exists_read_eq li lj
  cases place with
  | some product =>
      refine ⟨found, ?_, valid⟩
      simp [recallOr, read, valid i j product read]
  | none =>
      obtain ⟨between, ran, still⟩ := computes found valid
      obtain ⟨next, written⟩ := between.exists_write_eq li lj (nimTableEntry i j)
      refine ⟨next, ?_, still.write written⟩
      simp [recallOr, read, ran, written]

/-- The sum over the pairs of ones is the product of the words. -/
theorem computes_wordProduct {product : Nat → Nat → Run UInt64} {x y : Nimber}
    (entries : ∀ i ∈ onesOf x.word, ∀ j ∈ onesOf y.word,
      Computes (product i j) (nimTableEntry i j))
    : Computes (wordProduct product x.word y.word) (x * y).word := by
  have rows : ∀ sum, ∀ i ∈ onesOf x.word,
      Computes ((onesOf y.word).foldlM (fun sum j => do return sum ^^^ (← product i j)) sum)
        ((onesOf y.word).foldl (fun sum j => sum ^^^ nimTableEntry i j) sum) := by
    intro sum i row
    apply Computes.foldlM
    intro sum j column
    exact (entries i row j column).bind (.pure (sum ^^^ nimTableEntry i j))
  exact Computes.foldlM rows 0

-----------------------------------------------------------------------------------------
-- Words of one and two ones
-----------------------------------------------------------------------------------------

theorem shiftLeft_one_eq {n : Nat} (inside : n < 64)
    : 1 <<< UInt64.ofNat n = (ofDigit n).word :=
  calc
    1 <<< UInt64.ofNat n = UInt64.ofNat (1 <<< n) := (UInt64.ofNat_shiftLeft 1 n inside).symm
    _ = (ofDigit n).word := congrArg UInt64.ofNat (Nat.one_shiftLeft n)

/-- The word of two ones that stands for `3 / 2` of a Fermat power is its square. -/
theorem shiftLeft_three_eq {k : Nat} (small : k ≤ 5)
    : 3 <<< UInt64.ofNat (2 ^ k - 1) = (ofDigit (2 ^ k) * ofDigit (2 ^ k)).word := by
  have positive := Nat.two_pow_pos k
  have inside : 2 ^ k - 1 < 64 := (Nat.sub_le _ _).trans_lt (two_pow_lt_of_le small)
  have half : 2 ^ 2 ^ k / 2 = 2 ^ (2 ^ k - 1) := Nat.pow_div positive Nat.two_pos
  have square : (2 ^^^ 1) <<< (2 ^ k - 1) = 2 ^ 2 ^ k ^^^ 2 ^ 2 ^ k / 2 := by
    rw [Nat.shiftLeft_xor_distrib, Nat.shiftLeft_eq, ← pow_succ', Nat.sub_add_cancel positive,
      Nat.one_shiftLeft, half]
  calc
    3 <<< UInt64.ofNat (2 ^ k - 1) = UInt64.ofNat ((2 ^^^ 1) <<< (2 ^ k - 1)) :=
      (UInt64.ofNat_shiftLeft 3 _ inside).symm
    _ = (ofDigit (2 ^ k) * ofDigit (2 ^ k)).word := by
      rw [square, ← toNat_fermat_mul_self small, UInt64.ofNat_toNat]

theorem lt_of_mem_onesOf {word : UInt64} {digit width : Nat} (member : digit ∈ onesOf word)
    (below : word.toNat < 2 ^ width)
    : digit < width := by
  rw [onesOf_eq, List.mem_filter] at member
  have reached := Nat.ge_two_pow_of_testBit member.2
  exact (Nat.pow_lt_pow_iff_right Nat.one_lt_two).mp (reached.trans_lt below)

theorem eq_of_mem_onesOf_ofDigit {digit n : Nat} (inside : n < 64)
    (member : digit ∈ onesOf (ofDigit n).word)
    : digit = n := by
  rw [onesOf_eq, toNat_ofDigit inside, List.mem_filter, Nat.testBit_two_pow,
    decide_eq_true_eq] at member
  exact member.2.symm

-----------------------------------------------------------------------------------------
-- Closer to the end
-----------------------------------------------------------------------------------------

variable {i j k : Nat}

theorem distance_lt {a b : Nat} (hi : i ≠ 0) (hj : j ≠ 0) (lesser : a = 0 ∨ a &&& b < i &&& j)
    : distance a b < distance i j := by
  rw [distance, distance, if_neg (not_or.mpr ⟨hi, hj⟩)]
  split
  · exact Nat.succ_pos _
  · omega

/-- A number with no digit above those in common has less in common with the digits in only one: the
highest digit in common is missing.
-/
theorem land_xor_lt {a : Nat} (below : a < 2 ^ (i &&& j).size) (common : i &&& j ≠ 0)
    : a &&& (i ^^^ j) < i &&& j := by
  obtain ⟨top, one, zeros⟩ := Nat.exists_most_significant_bit common
  have size : (i &&& j).size ≤ top + 1 :=
    Nat.size_le.mpr (Nat.lt_pow_two_of_testBit _ fun digit above => zeros digit above)
  have both : i.testBit top = true ∧ j.testBit top = true := by
    rwa [Nat.testBit_and, Bool.and_eq_true] at one
  apply Nat.lt_of_testBit top _ one
  · intro digit above
    have high : a.testBit digit = false :=
      Nat.testBit_eq_false_of_lt (below.trans_le (Nat.pow_le_pow_right Nat.two_pos (by omega)))
    rw [zeros digit above, Nat.testBit_and, high, Bool.false_and]
  · rw [Nat.testBit_and, Nat.testBit_xor, both.1, both.2, Bool.xor_self, Bool.and_false]

/-- The products that are closer to the end than that of two exponents are right. -/
def RightBelow (i j : Nat) (product : Nat → Nat → Run UInt64) : Prop :=
  ∀ a < 64, ∀ b < 64, distance a b < distance i j → Computes (product a b) (nimTableEntry a b)

-----------------------------------------------------------------------------------------
-- One digit after the other
-----------------------------------------------------------------------------------------

/-- What a split holds once the digits below `k` are taken into account. The squares stay below the
Fermat power that follows the highest digit that both exponents have.
-/
structure Split.Accounts (split : Split) (i j k : Nat) : Prop where
  shift : split.shift = (i ^^^ j) % 2 ^ k
  squares : split.squares.toNat < 2 ^ 2 ^ ((i &&& j) % 2 ^ k).size
  product : (⟨split.squares⟩ * ofDigit split.shift : Nimber)
    = ofDigit (i % 2 ^ k) * ofDigit (j % 2 ^ k)

theorem mod_two_pow_succ (n k : Nat)
    : n % 2 ^ (k + 1) = n % 2 ^ k + 2 ^ k * (n.testBit k).toNat := by
  rw [Nat.mod_pow_succ, Nat.toNat_testBit]

namespace Split.Accounts

variable {split : Split}

theorem zero (i j : Nat) : Split.Accounts ⟨1, 0⟩ i j 0 where
  shift := by simp [Nat.mod_one]
  squares := by simp [Nat.mod_one]
  product := by
    simp only [pow_zero, Nat.mod_one]
    rfl

theorem shift_lt (accounts : split.Accounts i j k) : split.shift < 2 ^ k := by
  rw [accounts.shift]
  exact Nat.mod_lt _ (Nat.two_pow_pos k)

theorem squares_lt (accounts : split.Accounts i j k) : split.squares.toNat < 2 ^ 2 ^ k := by
  have size : ((i &&& j) % 2 ^ k).size ≤ k := Nat.size_le.mpr (Nat.mod_lt _ (Nat.two_pow_pos k))
  exact accounts.squares.trans_le (two_pow_two_pow_le size)

/-- A digit in neither exponent changes nothing. -/
theorem add_neither (accounts : split.Accounts i j k) (small : k ≤ 5) (left : i.testBit k = false)
    (right : j.testBit k = false)
    : split.Accounts i j (k + 1) where
  shift := by simp [mod_two_pow_succ, left, right, accounts.shift]
  squares := by simpa [mod_two_pow_succ, left, right] using accounts.squares
  product := by
    rw [ofDigit_mod_succ small, ofDigit_mod_succ small, left, right, accounts.product]
    simp

/-- A digit in one exponent adds to the shift. -/
theorem add_one (accounts : split.Accounts i j k) (small : k ≤ 5)
    (different : i.testBit k ≠ j.testBit k)
    : Split.Accounts { split with shift := split.shift + 2 ^ k } i j (k + 1) where
  shift := by simp [mod_two_pow_succ, different, accounts.shift]
  squares := by
    have common : (i.testBit k && j.testBit k) = false := by
      rw [Bool.and_eq_false_iff]
      grind
    simpa [mod_two_pow_succ, common] using accounts.squares
  product := by
    have before := accounts.product
    rw [ofDigit_add small accounts.shift_lt, ofDigit_mod_succ small, ofDigit_mod_succ small]
    cases left : i.testBit k <;> cases right : j.testBit k
    · exact absurd (left.trans right.symm) different
    · simp only [Bool.false_eq_true, if_false, if_true]
      linear_combination ofDigit (2 ^ k) * before
    · simp only [Bool.false_eq_true, if_false, if_true]
      linear_combination ofDigit (2 ^ k) * before
    · exact absurd (left.trans right.symm) different

/-- A digit in both exponents multiplies the squares. -/
theorem add_both (accounts : split.Accounts i j k) (small : k ≤ 5) (left : i.testBit k = true)
    (right : j.testBit k = true)
    : Split.Accounts
        ⟨(⟨split.squares⟩ * (ofDigit (2 ^ k) * ofDigit (2 ^ k)) : Nimber).word, split.shift⟩
        i j (k + 1) where
  shift := by simp [mod_two_pow_succ, left, right, accounts.shift]
  squares := by
    have size : k + 1 ≤ ((i &&& j) % 2 ^ (k + 1)).size := by
      apply Nat.lt_size.mpr
      simp [mod_two_pow_succ, left, right]
    have level : k + 1 ≤ 6 := Nat.succ_le_succ small
    have fermat := toNat_fermat_lt small
    have fits := toNat_mul_lt level (x := ⟨split.squares⟩) (lt_next accounts.squares_lt)
      (toNat_mul_lt level fermat fermat)
    exact fits.trans_le (two_pow_two_pow_le size)
  product := by
    rw [ofDigit_mod_succ small, ofDigit_mod_succ small, if_pos left, if_pos right]
    change Nimber.mk split.squares * (ofDigit (2 ^ k) * ofDigit (2 ^ k)) * ofDigit split.shift
      = ofDigit (i % 2 ^ k) * ofDigit (2 ^ k) * (ofDigit (j % 2 ^ k) * ofDigit (2 ^ k))
    linear_combination ofDigit (2 ^ k) * ofDigit (2 ^ k) * accounts.product

/-- One digit is taken into account. The squares so far have no digit from `k` on, so what a digit
in both exponents asks for is closer to the end.
-/
theorem exists_computes_add {product : Nat → Nat → Run UInt64} (accounts : split.Accounts i j k)
    (small : k ≤ 5) (hi : i ≠ 0) (hj : j ≠ 0) (right : RightBelow i j product)
    : ∃ next, Computes (split.add product i j k) next ∧ next.Accounts i j (k + 1) := by
  have inOne : (i ^^^ j) &&& 2 ^ k ≠ 0 ↔ i.testBit k ≠ j.testBit k := by
    simp [Nat.and_two_pow]
  have inLeft : i &&& 2 ^ k ≠ 0 ↔ i.testBit k = true := by
    simp [Nat.and_two_pow]
  simp only [Split.add, powerOfTwo_eq, inOne, inLeft]
  split
  · rename_i different
    exact ⟨_, .pure _, accounts.add_one small different⟩
  rename_i same
  have equal : j.testBit k = i.testBit k := (not_not.mp same).symm
  split
  · rename_i one
    have common : 2 ^ k ≤ i &&& j := by
      apply Nat.ge_two_pow_of_testBit
      rw [Nat.testBit_and, equal, one, Bool.and_true]
    have entries : ∀ a ∈ onesOf split.squares,
        ∀ b ∈ onesOf (ofDigit (2 ^ k) * ofDigit (2 ^ k)).word,
          Computes (product a b) (nimTableEntry a b) := by
      intro a row b column
      have lower : a &&& b < 2 ^ k :=
        Nat.and_le_left.trans_lt (lt_of_mem_onesOf row accounts.squares_lt)
      apply right a (NimLevel.lt_of_mem_onesOf row) b (NimLevel.lt_of_mem_onesOf column)
      exact distance_lt hi hj (.inr (lower.trans_le common))
    have inside : 2 ^ k - 1 < 64 := (Nat.sub_le _ _).trans_lt (two_pow_lt_of_le small)
    have square := computes_shifted 3 inside
    have squares := computes_wordProduct (x := ⟨split.squares⟩) entries
    rw [shiftLeft_three_eq small] at square
    exact ⟨_, square.bind (squares.bind (.pure _)), accounts.add_both small one (equal.trans one)⟩
  · rename_i zero
    rw [Bool.not_eq_true] at zero
    exact ⟨_, .pure _, accounts.add_neither small zero (equal.trans zero)⟩

theorem shiftRight_eq_zero_iff {n k : Nat} : n >>> k = 0 ↔ n < 2 ^ k := by
  rw [Nat.shiftRight_eq_div_pow, Nat.div_eq_zero_iff_lt (Nat.two_pow_pos k)]

/-- All digits are taken into account, by induction on the run. -/
theorem exists_computes_splitFrom {product : Nat → Nat → Run UInt64}
    (accounts : split.Accounts i j k) (li : i < 64) (lj : j < 64) (hi : i ≠ 0) (hj : j ≠ 0)
    (right : RightBelow i j product)
    : ∃ last count, Computes (splitFrom product i j k split) last ∧ last.Accounts i j count
        ∧ i < 2 ^ count ∧ j < 2 ^ count := by
  fun_induction splitFrom product i j k split with
  | case1 k split more ih =>
      have small : k ≤ 5 := by
        by_contra large
        have wide : 2 ^ 6 ≤ 2 ^ k := Nat.pow_le_pow_right Nat.two_pos (by omega)
        rw [Ne, Ne, shiftRight_eq_zero_iff, shiftRight_eq_zero_iff] at more
        omega
      obtain ⟨next, added, accounted⟩ := accounts.exists_computes_add small hi hj right
      obtain ⟨last, count, rest, done⟩ := ih next accounted
      exact ⟨last, count, added.bind rest, done⟩
  | case2 k split reached =>
      rw [not_or, not_not, not_not, shiftRight_eq_zero_iff, shiftRight_eq_zero_iff] at reached
      exact ⟨split, k, .pure split, accounts, reached⟩

/-- Once all digits are taken into account, the squares have no digit above those in common, so the
last product asks for what is closer to the end.
-/
theorem computes_wordProduct {product : Nat → Nat → Run UInt64} {count : Nat}
    (accounts : split.Accounts i j count) (wi : i < 2 ^ count) (wj : j < 2 ^ count)
    (inside : split.shift < 64) (hi : i ≠ 0) (hj : j ≠ 0) (right : RightBelow i j product)
    : Computes (wordProduct product split.squares (ofDigit split.shift).word)
        (ofDigit i * ofDigit j).word := by
  have common : (i &&& j) % 2 ^ count = i &&& j :=
    Nat.mod_eq_of_lt (Nat.and_le_left.trans_lt wi)
  have apart : split.shift = i ^^^ j :=
    accounts.shift.trans (Nat.mod_eq_of_lt (Nat.xor_lt_two_pow wi wj))
  have whole := accounts.product
  rw [Nat.mod_eq_of_lt wi, Nat.mod_eq_of_lt wj] at whole
  rw [← whole]
  apply DigitTable.computes_wordProduct (x := ⟨split.squares⟩)
  intro a row b column
  have lower := lt_of_mem_onesOf row accounts.squares
  rw [common] at lower
  apply right a (NimLevel.lt_of_mem_onesOf row) b (NimLevel.lt_of_mem_onesOf column)
  apply distance_lt hi hj
  rw [eq_of_mem_onesOf_ofDigit inside column, apart]
  by_cases nothing : i &&& j = 0
  · left
    simpa [nothing] using lower
  · exact .inr (land_xor_lt lower nothing)

end Split.Accounts

-----------------------------------------------------------------------------------------
-- The table
-----------------------------------------------------------------------------------------

/-- Every product is that of the two powers of two, by induction on the distance from the end. -/
theorem computes_product (li : i < 64) (lj : j < 64)
    : Computes (product i j) (nimTableEntry i j) := by
  induction far : distance i j using Nat.strongRecOn generalizing i j with
  | ind limit ih =>
      rw [product, far]
      split
      · rename_i zero
        have inside : i + j < 64 := by omega
        have sum : ofDigit (i + j) = ofDigit i * ofDigit j := by
          rcases zero with rfl | rfl
          · rw [zero_add, ofDigit_zero, one_mul]
          · rw [add_zero, ofDigit_zero, mul_one]
        rw [nimTableEntry_eq li lj, ← sum, ← shiftLeft_one_eq inside]
        exact computes_shifted 1 inside
      · rename_i positive
        obtain ⟨hi, hj⟩ := not_or.mp positive
        have right : RightBelow i j (below limit fun a b _ => product a b) := by
          intro a la b lb closer
          rw [far] at closer
          rw [below, dif_pos closer]
          exact ih _ closer la lb rfl
        obtain ⟨split, count, ran, accounts, wi, wj⟩ :=
          (Split.Accounts.zero i j).exists_computes_splitFrom li lj hi hj right
        have inside : split.shift < 64 := by
          rw [accounts.shift]
          exact (Nat.mod_le _ _).trans_lt (Nat.xor_lt_two_pow (n := 6) li lj)
        have power := computes_shifted 1 inside
        have whole := accounts.computes_wordProduct wi wj inside hi hj right
        rw [shiftLeft_one_eq inside] at power
        rw [← nimTableEntry_eq li lj] at whole
        exact computes_recallOr li lj (ran.bind (power.bind whole))

/-- The table is made of its entries. -/
theorem map_nimTableEntry
    : ((Array.range 64).map fun i => (Array.range 64).map (nimTableEntry i)) = nimTable := by
  apply Array.map_congr_left
  intro i row
  apply Array.map_congr_left
  intro j column
  rw [Array.mem_range] at row column
  simp [nimTableEntry, nimTable, Array.getD_eq_getD_getElem?, row, column]

/-- The table by the digits of the exponents is the table by levels. -/
theorem table?_eq : table? = some nimTable := by
  have rows : Computes
      ((Array.range 64).mapM fun i => (Array.range 64).mapM fun j => product i j)
      ((Array.range 64).map fun i => (Array.range 64).map (nimTableEntry i)) := by
    apply Computes.mapM
    intro i row
    apply Computes.mapM
    intro j column
    exact computes_product (Array.mem_range.mp row) (Array.mem_range.mp column)
  obtain ⟨last, ran, _⟩ := rows .nothing Found.valid_nothing
  rw [table?, StateT.run'_eq, ran, map_nimTableEntry, Option.map_eq_map, Option.map_some]

end DigitTable

/-- Fermat powers behave as the theory of nimbers demands, with the table that the digits of the
exponents give. The words below `F = 2 ^ 2 ^ k` are closed under products, and under inverses though
the exponent is that of the field of all words. A word below `F` times `F` is the ordinary product,
and the square of `F` is the sum of `F` and `F / 2`.
-/
theorem Nimber.fermat_powers {k : Nat} (small : k ≤ 5)
    : DigitTable.table? = some nimTable
      ∧ (∀ x y : Nimber, x.word.toNat < 2 ^ 2 ^ k → y.word.toNat < 2 ^ 2 ^ k
          → (x * y).word.toNat < 2 ^ 2 ^ k)
      ∧ (∀ x : Nimber, x.word.toNat < 2 ^ 2 ^ k → x ≠ 0
          → ∃ v, x.inv? = some v ∧ x * v = 1 ∧ v.word.toNat < 2 ^ 2 ^ k)
      ∧ (∀ x : Nimber, x.word.toNat < 2 ^ 2 ^ k
          → (x * ⟨UInt64.ofNat (2 ^ 2 ^ k)⟩).word.toNat = x.word.toNat * 2 ^ 2 ^ k)
      ∧ ((⟨UInt64.ofNat (2 ^ 2 ^ k)⟩ * ⟨UInt64.ofNat (2 ^ 2 ^ k)⟩ : Nimber).word.toNat
          = 2 ^ 2 ^ k ^^^ 2 ^ 2 ^ k / 2) := by
  have level : k ≤ 6 := Nat.le_succ_of_le small
  exact ⟨DigitTable.table?_eq, fun _ _ => toNat_mul_lt level, fun _ => exists_inv?_lt level,
    fun _ => toNat_mul_fermat small, toNat_fermat_mul_self small⟩

theorem Nimber.fermat_powers_five
    : 5 ≤ 5
      ∧ (⟨7⟩ * ⟨0x80000000⟩ : Nimber).word.toNat < 2 ^ 32
      ∧ (∃ v, (⟨7⟩ : Nimber).inv? = some v ∧ ⟨7⟩ * v = 1 ∧ v.word.toNat < 2 ^ 32)
      ∧ (⟨7⟩ * ⟨UInt64.ofNat (2 ^ 32)⟩ : Nimber).word.toNat = 7 * 2 ^ 32
      ∧ (⟨UInt64.ofNat (2 ^ 32)⟩ * ⟨UInt64.ofNat (2 ^ 32)⟩ : Nimber).word.toNat = 3 * 2 ^ 31 := by
  obtain ⟨_, closed, inverses, ordinary, square⟩ := fermat_powers (k := 5) (by decide)
  exact ⟨by decide, closed ⟨7⟩ ⟨0x80000000⟩ (by decide) (by decide),
    inverses ⟨7⟩ (by decide) (by decide), ordinary ⟨7⟩ (by decide), square⟩

end FastAlgebra
