import Mathlib
import FastAlgebra.PermCode

/-! The digits of a permutation are its numbers of inversions. Reading them off the entries and
choosing the entries by them undo each other, both from the last position on: at each position the
greater ones among the other values that are left are the greater ones among the earlier entries.
-/

namespace FastAlgebra.PermCode

-----------------------------------------------------------------------------------------
-- Digits
-----------------------------------------------------------------------------------------

/-- Each digit is below its radix, which is its position counted from one. The latest digit stands
first.
-/
def AreDigits : List Nat → Prop
  | [] => True
  | digit :: earlier => digit ≤ earlier.length ∧ AreDigits earlier

/-- The number with the given digits. -/
def digitValue : List Nat → Nat
  | [] => 0
  | digit :: earlier => digitValue earlier * (earlier.length + 1) + digit

/-- A digit below its radix keeps the number below the next factorial. -/
theorem append_digit_lt {number position digit : Nat} (small : number < position.factorial)
    (below : digit ≤ position)
    : number * (position + 1) + digit < (position + 1).factorial := by
  have reached : (number + 1) * (position + 1) ≤ position.factorial * (position + 1) :=
    Nat.mul_le_mul_right _ small
  rw [Nat.factorial_succ, Nat.mul_comm (position + 1)]
  rw [Nat.add_mul, Nat.one_mul] at reached
  omega

/-- The numbers of `n` digits are below `n!`, by induction on the digits. -/
theorem digitValue_lt {digits : List Nat} (h : AreDigits digits)
    : digitValue digits < digits.length.factorial := by
  induction digits with
  | nil => exact Nat.one_pos
  | cons digit earlier ih => exact append_digit_lt (ih h.2) h.1

-----------------------------------------------------------------------------------------
-- From entries to digits
-----------------------------------------------------------------------------------------

/-- For each entry the number of earlier ones that are greater. The latest entry stands first. -/
def inversions : List Nat → List Nat
  | [] => []
  | value :: earlier => earlier.countP (value < ·) :: inversions earlier

@[simp]
theorem length_inversions (entries : List Nat) : (inversions entries).length = entries.length := by
  induction entries with
  | nil => rfl
  | cons value earlier ih => rw [inversions, List.length_cons, List.length_cons, ih]

theorem areDigits_inversions (entries : List Nat) : AreDigits (inversions entries) := by
  induction entries with
  | nil => exact trivial
  | cons value earlier ih =>
      refine ⟨?_, ih⟩
      rw [length_inversions]
      exact List.countP_le_length

/-- How many of the entries before a position are greater than the one there. -/
def earlierGreater (perm : List Nat) (i : Nat) : Nat :=
  (perm.take i).countP (perm.getD i 0 < ·)

theorem earlierGreater_concat {perm : List Nat} (last : Nat) {i : Nat} (before : i < perm.length)
    : earlierGreater (perm ++ [last]) i = earlierGreater perm i := by
  rw [earlierGreater, earlierGreater, List.take_append_of_le_length before.le,
    List.getD_append _ _ _ _ before]

theorem earlierGreater_concat_length (perm : List Nat) (last : Nat)
    : earlierGreater (perm ++ [last]) perm.length = perm.countP (last < ·) := by
  simp [earlierGreater]

/-- In mixed radix the digit at each position counts as many units as the later radices multiply up
to, by induction from the end.
-/
theorem digitValue_inversions (perm : List Nat)
    : digitValue (inversions perm.reverse)
      = ∑ i ∈ Finset.range perm.length,
          earlierGreater perm i * (perm.length.factorial / (i + 1).factorial) := by
  induction perm using List.reverseRecOn with
  | nil => rfl
  | append_singleton perm last ih =>
      have unit : ∀ i ∈ Finset.range perm.length,
          earlierGreater (perm ++ [last]) i
              * ((perm.length + 1).factorial / (i + 1).factorial)
            = earlierGreater perm i * (perm.length.factorial / (i + 1).factorial)
              * (perm.length + 1) := by
        intro i member
        have before : i < perm.length := Finset.mem_range.mp member
        have divides : (i + 1).factorial ∣ perm.length.factorial :=
          Nat.factorial_dvd_factorial before
        rw [earlierGreater_concat last before, Nat.factorial_succ, Nat.mul_comm (perm.length + 1),
          Nat.mul_div_right_comm divides, Nat.mul_assoc]
      rw [List.reverse_append, List.reverse_singleton, List.singleton_append, inversions,
        digitValue, ih, length_inversions, List.length_reverse, List.countP_reverse,
        List.length_append, List.length_singleton, Finset.sum_range_succ,
        Finset.sum_congr rfl unit, Finset.sum_mul, earlierGreater_concat_length,
        Nat.div_self (Nat.factorial_pos _), Nat.mul_one]

-----------------------------------------------------------------------------------------
-- From digits to entries
-----------------------------------------------------------------------------------------

/-- The entries that the digits choose from the values that are left. The latest entry stands first.
-/
def chosen (left : List Nat) : List Nat → List Nat
  | [] => []
  | digit :: rest => left.getD digit 0 :: chosen (left.eraseIdx digit) rest

theorem place_eq (left placed digits : List Nat)
    : place left placed digits = (chosen left digits).reverse ++ placed := by
  induction digits generalizing left placed with
  | nil => rfl
  | cons digit rest ih =>
      rw [place, ih, chosen, List.reverse_cons, List.append_assoc, List.singleton_append]

/-- A digit points into the values that are left, and leaves as many of them as there are digits. -/
theorem lt_length_and_length_eraseIdx {left rest : List Nat} {digit : Nat}
    (length : left.length = (digit :: rest).length) (h : AreDigits (digit :: rest))
    : digit < left.length ∧ (left.eraseIdx digit).length = rest.length := by
  have inside : digit < left.length := length ▸ Nat.lt_succ_of_le h.1
  refine ⟨inside, ?_⟩
  rw [List.length_eraseIdx_of_lt inside, length, List.length_cons, Nat.add_sub_cancel]

/-- The digits choose each value once. -/
theorem perm_chosen {left digits : List Nat} (length : left.length = digits.length)
    (h : AreDigits digits)
    : (chosen left digits).Perm left := by
  induction digits generalizing left with
  | nil =>
      obtain rfl := List.length_eq_zero_iff.mp length
      exact .refl []
  | cons digit rest ih =>
      obtain ⟨inside, shorter⟩ := lt_length_and_length_eraseIdx length h
      rw [chosen, List.getD_eq_getElem _ _ inside]
      exact ((ih shorter h.2).cons _).trans (List.getElem_cons_eraseIdx_perm inside)

/-- In descending order as many other values are greater than a value as stand before it. -/
theorem countP_eraseIdx {left : List Nat} (descending : left.Pairwise (· > ·)) {digit : Nat}
    (inside : digit < left.length)
    : (left.eraseIdx digit).countP (left[digit] < ·) = digit := by
  have before : ∀ value ∈ left.take digit, left[digit] < value := by
    intro value member
    obtain ⟨i, below, rfl⟩ := List.mem_take_iff_getElem.mp member
    exact List.pairwise_iff_getElem.mp descending i digit _ inside (by omega)
  have behind : ∀ value ∈ left.drop (digit + 1), ¬ left[digit] < value := by
    intro value member
    obtain ⟨i, below, rfl⟩ := List.mem_drop_iff_getElem.mp member
    have within : digit + 1 + i < left.length := by omega
    have less := List.pairwise_iff_getElem.mp descending digit (digit + 1 + i) inside within
    exact (less (by omega)).le.not_gt
  rw [List.eraseIdx_eq_take_drop_succ, List.countP_append,
    List.countP_eq_length.mpr (by simpa using before),
    List.countP_eq_zero.mpr (by simpa using behind), List.length_take, Nat.min_eq_left inside.le,
    Nat.add_zero]

-----------------------------------------------------------------------------------------
-- Back and forth
-----------------------------------------------------------------------------------------

/-- The digits are the inversions of the entries that they choose, by induction on the digits. -/
theorem inversions_chosen {left digits : List Nat} (descending : left.Pairwise (· > ·))
    (length : left.length = digits.length) (h : AreDigits digits)
    : inversions (chosen left digits) = digits := by
  induction digits generalizing left with
  | nil => rfl
  | cons digit rest ih =>
      obtain ⟨inside, shorter⟩ := lt_length_and_length_eraseIdx length h
      have sorted : (left.eraseIdx digit).Pairwise (· > ·) :=
        descending.sublist (List.eraseIdx_sublist left digit)
      -- The earlier entries are the other values that are left, in another order.
      rw [chosen, inversions, ih sorted shorter h.2, List.getD_eq_getElem _ _ inside,
        (perm_chosen shorter h.2).countP_eq, countP_eraseIdx descending inside]

/-- The inversions of entries choose them back, by induction on the entries. -/
theorem chosen_inversions {left entries : List Nat} (descending : left.Pairwise (· > ·))
    (perm : entries.Perm left)
    : chosen left (inversions entries) = entries := by
  induction entries generalizing left with
  | nil => rfl
  | cons value earlier ih =>
      obtain ⟨digit, inside, found⟩ :=
        List.getElem_of_mem (perm.subset (List.mem_cons_self (a := value)))
      have split := List.getElem_cons_eraseIdx_perm inside
      rw [found] at split
      have others : earlier.Perm (left.eraseIdx digit) := (perm.trans split.symm).cons_inv
      have sorted : (left.eraseIdx digit).Pairwise (· > ·) :=
        descending.sublist (List.eraseIdx_sublist left digit)
      have position : earlier.countP (value < ·) = digit := by
        rw [others.countP_eq, ← found]
        exact countP_eraseIdx descending inside
      rw [inversions, chosen, position, List.getD_eq_getElem _ _ inside, found, ih sorted others]

end FastAlgebra.PermCode
