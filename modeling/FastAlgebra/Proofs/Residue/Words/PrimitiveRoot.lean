import Mathlib
import FastAlgebra.Residue.Words.PrimitiveRoot
import FastAlgebra.Proofs.Residue.PrimitiveRoot
import FastAlgebra.Proofs.Residue.Words.RootOfUnity

/-! Generators on words are those of the residues. A divisor that is tried is at most the square
root of what is left, so it stays below half of the width, and its square and its successor stay
within. Modulo a prime the run finds the prime factors of the group order and ends with the least
generator of the units.
-/

namespace FastAlgebra

namespace CheckedWord

theorem exists_quotient_eq {w : Nat} {x y : BitVec w} (nonzero : y.toNat ≠ 0)
    : ∃ z, quotient x y = some z ∧ z.toNat = x.toNat / y.toNat := by
  have divisor : y ≠ 0 := by
    rintro rfl
    exact nonzero rfl
  exact ⟨x / y, if_neg divisor, BitVec.toNat_udiv⟩

theorem eq_zero_iff_toNat {w : Nat} {x : BitVec w} : x = 0 ↔ x.toNat = 0 := by
  rw [← BitVec.toNat_inj]
  exact Iff.rfl

-----------------------------------------------------------------------------------------
-- Trial division
-----------------------------------------------------------------------------------------

/-- Taking a factor out of a word comes to an end, by induction on the numbers that are left. -/
theorem exists_withoutFactor_eq {d n : BitVec 64} (large : 1 < d.toNat) (positive : 0 < n.toNat)
    : ∃ z, withoutFactor d n = some z ∧ z.toNat = FastAlgebra.withoutFactor d.toNat n.toNat := by
  generalize number : n.toNat = k at positive
  fun_induction FastAlgebra.withoutFactor d.toNat k generalizing n with
  | case1 k divides ih =>
      subst number
      obtain ⟨rest, remains, isRest⟩ := exists_remainder_eq (x := n) (y := d) (by omega)
      obtain ⟨left, divided, isLeft⟩ := exists_quotient_eq (x := n) (y := d) (by omega)
      have none : rest = 0 := eq_zero_iff_toNat.mpr (isRest.trans divides.2.2)
      have less : left < n := by
        rw [BitVec.lt_def, isLeft]
        exact Nat.div_lt_self positive large
      have whole : d.toNat ≤ n.toNat := Nat.le_of_dvd positive (Nat.dvd_of_mod_eq_zero divides.2.2)
      rw [withoutFactor]
      simp only [remains, divided, none, less, Option.bind_eq_bind, Option.bind_some, if_true,
        dif_pos]
      exact ih isLeft (Nat.div_pos whole (by omega))
  | case2 k kept =>
      subst number
      obtain ⟨rest, remains, isRest⟩ := exists_remainder_eq (x := n) (y := d) (by omega)
      have some : rest ≠ 0 :=
        fun none => kept ⟨large, positive, isRest.symm.trans (eq_zero_iff_toNat.mp none)⟩
      refine ⟨n, ?_, rfl⟩
      rw [withoutFactor]
      simp only [remains, some, Option.bind_eq_bind, Option.bind_some, if_false, Option.pure_def]

/-- A divisor that is tried is below half of the width, and so is the next one. -/
theorem succ_divisor_lt {trial : TrialDivision} (more : trial.Continues)
    (small : trial.rest < 2 ^ 63)
    : trial.divisor + 1 < 2 ^ 32 := by
  have square : trial.divisor * trial.divisor ≤ trial.rest := more
  by_contra wide
  have low : 2 ^ 32 - 1 ≤ trial.divisor := by omega
  have := Nat.mul_le_mul low low
  omega

/-- The words of a stage. -/
structure StandsFor (d n : BitVec 64) (trial : TrialDivision) : Prop where
  divisor : d.toNat = trial.divisor
  rest : n.toNat = trial.rest

/-- The square of a divisor below half of the width stays within, and decides whether to go on. -/
theorem StandsFor.exists_square_eq {d n : BitVec 64} {trial : TrialDivision}
    (standsFor : StandsFor d n trial) (narrow : trial.divisor < 2 ^ 32)
    : ∃ square, mul d d = some square ∧ (square ≤ n ↔ trial.Continues) := by
  have fits : d.toNat * d.toNat < 2 ^ 64 := by
    rw [standsFor.divisor]
    calc trial.divisor * trial.divisor < 2 ^ 32 * 2 ^ 32 := Nat.mul_lt_mul'' narrow narrow
      _ = 2 ^ 64 := by norm_num
  obtain ⟨square, squared, isSquare⟩ := exists_mul_eq fits
  refine ⟨square, squared, ?_⟩
  rw [BitVec.le_def, isSquare, standsFor.divisor, standsFor.rest, TrialDivision.Continues]

/-- One stage: what the word is compared with, whether it divides, and the words of the next stage.
-/
theorem StandsFor.exists_next_eq {d n : BitVec 64} {trial : TrialDivision}
    (standsFor : StandsFor d n trial)
    (screened : trial.Screened) (more : trial.Continues) (small : trial.rest < 2 ^ 63)
    : ∃ rest left next,
        remainder n d = some rest
        ∧ (rest = 0 ↔ trial.rest % trial.divisor = 0)
        ∧ (if rest = 0 then withoutFactor d n else pure n) = some left
        ∧ add d 1 = some next
        ∧ StandsFor next left trial.next := by
  have large := screened.large
  have narrow := succ_divisor_lt more small
  obtain ⟨rest, remains, isRest⟩ := exists_remainder_eq (x := n) (y := d)
    (by rw [standsFor.divisor]; omega)
  obtain ⟨next, added, isNext⟩ := exists_add_eq (x := d) (y := 1)
    (by rw [standsFor.divisor, toNat_one]; omega)
  obtain ⟨left, taken, isLeft⟩ := exists_withoutFactor_eq (d := d) (n := n)
    (by rwa [standsFor.divisor]) (by rw [standsFor.rest]; exact screened.positive)
  rw [standsFor.divisor, standsFor.rest] at isRest isLeft
  rw [standsFor.divisor, toNat_one] at isNext
  have divides : rest = 0 ↔ trial.rest % trial.divisor = 0 := by rw [eq_zero_iff_toNat, isRest]
  by_cases none : rest = 0
  · exact ⟨rest, left, next, remains, divides, by rw [if_pos none, taken], added, isNext, isLeft⟩
  · refine ⟨rest, n, next, remains, divides, by rw [if_neg none]; rfl, added, isNext, ?_⟩
    rw [TrialDivision.next, FastAlgebra.withoutFactor, if_neg, standsFor.rest]
    exact fun whole => none (divides.mpr whole.2.2)

/-- Where the square is reached and the stage has a next one, the factors are found from there. -/
theorem factorsFrom_of_add {d n square rest left next : BitVec 64} (squared : mul d d = some square)
    (reached : square ≤ n) (remains : remainder n d = some rest)
    (taken : (if rest = 0 then withoutFactor d n else pure n) = some left)
    (added : add d 1 = some next)
    : factorsFrom d n = (if rest = 0 then (d :: ·) else id) <$> factorsFrom next left := by
  rw [factorsFrom]
  simp only [squared, reached, remains, taken, Option.bind_eq_bind, Option.bind_some, if_true]
  split
  · rename_i found same
    obtain rfl := Option.some.inj (added.symm.trans same)
    rfl
  · rename_i none
    exact absurd (added.symm.trans none) (Option.some_ne_none _)

/-- Trial division on words finds the factors, by induction on the stages. -/
theorem exists_factorsFrom_eq {d n : BitVec 64} {trial : TrialDivision}
    (standsFor : StandsFor d n trial) (screened : trial.Screened) (narrow : trial.divisor < 2 ^ 32)
    (small : trial.rest < 2 ^ 63)
    : ∃ words, factorsFrom d n = some words ∧ words.map BitVec.toNat = trial.factors := by
  have later : trial.next.rest < 2 ^ 63 :=
    (withoutFactor_le trial.divisor trial.rest).trans_lt small
  have one : (1 : BitVec 64).toNat = 1 := toNat_one
  fun_induction TrialDivision.factors trial generalizing d n with
  | case1 trial more whole ih =>
      obtain ⟨square, squared, reached⟩ := standsFor.exists_square_eq narrow
      obtain ⟨rest, left, next, remains, divides, taken, added, stands⟩ :=
        standsFor.exists_next_eq screened more small
      obtain ⟨words, found, numbers⟩ := ih stands screened.next (succ_divisor_lt more small) later
        ((withoutFactor_le _ _).trans_lt later)
      refine ⟨d :: words, ?_, by rw [List.map_cons, standsFor.divisor, numbers]⟩
      rw [factorsFrom_of_add squared (reached.mpr more) remains taken added,
        if_pos (divides.mpr whole), found]
      rfl
  | case2 trial more kept ih =>
      obtain ⟨square, squared, reached⟩ := standsFor.exists_square_eq narrow
      obtain ⟨rest, left, next, remains, divides, taken, added, stands⟩ :=
        standsFor.exists_next_eq screened more small
      obtain ⟨words, found, numbers⟩ := ih stands screened.next (succ_divisor_lt more small) later
        ((withoutFactor_le _ _).trans_lt later)
      refine ⟨words, ?_, numbers⟩
      rw [factorsFrom_of_add squared (reached.mpr more) remains taken added,
        if_neg (mt divides.mp kept), found]
      rfl
  | case3 trial done some =>
      obtain ⟨square, squared, reached⟩ := standsFor.exists_square_eq narrow
      have large : 1 < n := by rwa [BitVec.lt_def, one, standsFor.rest]
      refine ⟨[n], ?_, by rw [List.map_singleton, standsFor.rest]⟩
      rw [factorsFrom, squared, Option.bind_eq_bind, Option.bind_some, if_neg (mt reached.mp done),
        if_pos large, Option.pure_def]
  | case4 trial done none =>
      obtain ⟨square, squared, reached⟩ := standsFor.exists_square_eq narrow
      have small : ¬ 1 < n := by rwa [BitVec.lt_def, one, standsFor.rest]
      refine ⟨[], ?_, List.map_nil⟩
      rw [factorsFrom, squared, Option.bind_eq_bind, Option.bind_some, if_neg (mt reached.mp done),
        if_neg small, Option.pure_def]

-----------------------------------------------------------------------------------------
-- Searching below a word
-----------------------------------------------------------------------------------------

/-- Where a word fails the test and there is a next one, the search goes on with that. -/
theorem leastFrom?_of_add {test : BitVec 64 → Option Bool} {bound q next : BitVec 64}
    (below : q < bound) (fails : test q = some false) (added : add q 1 = some next)
    : leastFrom? test bound q = leastFrom? test bound next := by
  rw [leastFrom?, dif_pos below, fails, Option.bind_eq_bind, Option.bind_some,
    if_neg Bool.false_ne_true]
  split
  · rename_i found same
    obtain rfl := Option.some.inj (added.symm.trans same)
    rfl
  · rename_i none
    exact absurd (added.symm.trans none) (Option.some_ne_none _)

/-- A search on words is the one on numbers, by induction on its run: a word below the bound has a
next one.
-/
theorem exists_leastFrom?_eq {test : BitVec 64 → Option Bool} {passes : Nat → Bool}
    {bound : BitVec 64}
    (exact : ∀ q < bound, test q = some (passes q.toNat)) (q : BitVec 64)
    : ∃ found, leastFrom? test bound q = some found
        ∧ found.map BitVec.toNat = leastBelow? passes q.toNat bound.toNat := by
  have isBelow {q : BitVec 64} : q < bound ↔ q.toNat < bound.toNat := BitVec.lt_def
  generalize start : q.toNat = k
  fun_induction leastBelow? passes k bound.toNat generalizing q with
  | case1 k below passed =>
      subst start
      refine ⟨some q, ?_, rfl⟩
      rw [leastFrom?, dif_pos (isBelow.mpr below), exact q below, passed]
      rfl
  | case2 k below failed ih =>
      subst start
      have top := bound.isLt
      obtain ⟨next, added, number⟩ := exists_add_eq (x := q) (y := 1) (by rw [toNat_one]; omega)
      rw [toNat_one] at number
      have fails : test q = some false := by
        rw [exact q below, Bool.eq_false_of_not_eq_true failed]
      rw [leastFrom?_of_add below fails added]
      exact ih next number
  | case3 k reached =>
      subst start
      exact ⟨none, by rw [leastFrom?, dif_neg (mt isBelow.mp reached)], rfl⟩

end CheckedWord

-----------------------------------------------------------------------------------------
-- Generators
-----------------------------------------------------------------------------------------

/-- A test of all entries has a result if those of the entries do, by induction on the list. -/
theorem allM_eq_some {α : Type} {test : α → Option Bool} {passes : α → Bool} {entries : List α}
    (exact : ∀ entry ∈ entries, test entry = some (passes entry))
    : entries.allM test = some (entries.all passes) := by
  induction entries with
  | nil => rfl
  | cons entry entries ih =>
      have rest := ih fun other member => exact other (List.mem_cons_of_mem entry member)
      rw [List.allM, exact entry List.mem_cons_self, List.all_cons]
      cases passes entry with
      | true => exact rest
      | false => rfl

namespace ResidueWord

variable {m : Modulus}

open Residue

/-- The words that are found are the prime factors of the group order. -/
theorem exists_orderFactors_eq (large : 1 < m.toNat)
    : ∃ words, orderFactors m = some words
        ∧ words.map BitVec.toNat = distinctPrimeFactors (m.toNat - 1) := by
  obtain ⟨less, taken, number, _⟩ := exists_less_eq large
  have small := m.toNat_lt_half
  have two : (2 : BitVec 64).toNat = 2 := rfl
  have start : CheckedWord.StandsFor 2 less ⟨2, m.toNat - 1⟩ := ⟨two, number⟩
  obtain ⟨words, found, numbers⟩ :=
    CheckedWord.exists_factorsFrom_eq start (TrialDivision.screened_two (by omega)) (by norm_num)
      (by change m.toNat - 1 < 2 ^ 63; omega)
  exact ⟨words, by rw [orderFactors, taken, Option.bind_eq_bind, Option.bind_some, found], numbers⟩

/-- The test of a word is that of its number. -/
theorem hasFullOrder_eq (large : 1 < m.toNat) {factors : List (BitVec 64)}
    (numbers : factors.map BitVec.toNat = distinctPrimeFactors (m.toNat - 1)) {g : BitVec 64}
    (below : g < m.bits)
    : hasFullOrder m factors g = some (m.hasFullOrder g.toNat) := by
  rw [BitVec.lt_def, m.toNat_bits] at below
  obtain ⟨less, taken, isLess, _⟩ := exists_less_eq large
  rw [hasFullOrder, Modulus.hasFullOrder, ← numbers, List.all_map]
  apply allM_eq_some
  intro factor member
  have prime : factor.toNat.Prime := by
    have found := List.mem_map_of_mem (f := BitVec.toNat) member
    rw [numbers, mem_distinctPrimeFactors_iff (by omega)] at found
    exact found.1
  obtain ⟨exponent, divided, isExponent⟩ :=
    CheckedWord.exists_quotient_eq (x := less) (y := factor) prime.ne_zero
  rw [isLess] at isExponent
  have one : (ofNat (m.powMod g.toNat exponent.toNat) : Residue m).bits = 1
      ↔ m.powMod g.toNat exponent.toNat = 1 := by
    rw [← BitVec.toNat_inj, toNat_bits, toNat_ofNat, Nat.mod_eq_of_lt (m.powMod_lt _ _)]
    rfl
  rw [taken, Option.bind_eq_bind, Option.bind_some, divided, Option.bind_some,
    pow_eq_powMod below, Option.bind_some, Option.pure_def, Function.comp_apply, ← isExponent,
    Option.some.injEq, Bool.eq_iff_iff, bne_iff_ne, bne_iff_ne]
  exact one.not

/-- The search on words ends with the word of the generator. -/
theorem primitiveRoot_eq (large : 1 < m.toNat)
    : primitiveRoot m = some (ofNat m.primitiveRoot : Residue m).bits := by
  have two : (2 : BitVec 64).toNat = 2 := rfl
  have isTwo : m.bits = 2 ↔ m.toNat = 2 := by rw [← BitVec.toNat_inj, m.toNat_bits, two]
  have isOne : (ofNat 1 : Residue m).toNat = 1 := by rw [toNat_ofNat, Nat.mod_eq_of_lt large]
  rw [primitiveRoot, m.primitiveRoot_eq]
  simp only [isTwo]
  split
  · exact eq_some_bits rfl isOne.symm
  · obtain ⟨factors, found, numbers⟩ := exists_orderFactors_eq large
    obtain ⟨least, searched, same⟩ := CheckedWord.exists_leastFrom?_eq
      (fun g below => hasFullOrder_eq large numbers below) 2
    rw [m.toNat_bits, two] at same
    simp only [found, searched, ← same, Option.bind_eq_bind, Option.bind_some, Option.pure_def]
    cases least with
    | none => exact eq_some_bits rfl isOne.symm
    | some g =>
        apply eq_some_bits rfl
        have below := (leastBelow?_eq_some_iff.mp same.symm).1.2.1
        rw [Option.map_some, Option.getD_some, Option.getD_some, toNat_ofNat,
          Nat.mod_eq_of_lt below]

end ResidueWord

namespace Residue

/-- Modulo a prime the search ends with the least generator of the units: its order is that of the
group, so every residue other than zero is one of its powers. The numbers that it is tested with are
the prime factors of the group order, each once. On words no step leaves its width, not even the
square of a divisor, and no division is repeated forever.
-/
theorem primitiveRoot_exact (m : Modulus) (prime : m.toNat.Prime)
    : (∃ words, ResidueWord.orderFactors m = some words
          ∧ words.map BitVec.toNat = distinctPrimeFactors (m.toNat - 1))
      ∧ (distinctPrimeFactors (m.toNat - 1)).Pairwise (· < ·)
      ∧ (∀ q, q ∈ distinctPrimeFactors (m.toNat - 1) ↔ q.Prime ∧ q ∣ m.toNat - 1)
      ∧ ResidueWord.primitiveRoot m = some (ofNat m.primitiveRoot : Residue m).bits
      ∧ IsLeast {g | 1 ≤ g ∧ g < m.toNat ∧ orderOf (ofNat g : Residue m) = m.toNat - 1}
          m.primitiveRoot
      ∧ ∀ y : Residue m, y ≠ 0 → ∃ exponent, y = ofNat m.primitiveRoot ^ exponent := by
  have : Fact m.toNat.Prime := ⟨prime⟩
  have large := prime.one_lt
  have positive : 0 < m.toNat - 1 := by omega
  have least := isLeast_primitiveRoot m
  exact ⟨ResidueWord.exists_orderFactors_eq large, pairwise_distinctPrimeFactors positive,
    mem_distinctPrimeFactors_iff positive, ResidueWord.primitiveRoot_eq large, least,
    fun y nonzero => exists_eq_pow least.1.2.2 nonzero⟩

theorem primitiveRoot_exact_seventeen
    : (∀ q, q ∈ distinctPrimeFactors 16 ↔ q.Prime ∧ q ∣ 16)
      ∧ ResidueWord.primitiveRoot Modulus.seventeen
        = some (ofNat Modulus.seventeen.primitiveRoot : Residue Modulus.seventeen).bits
      ∧ IsLeast {g | 1 ≤ g ∧ g < 17 ∧ orderOf (ofNat g : Residue Modulus.seventeen) = 16}
          Modulus.seventeen.primitiveRoot := by
  obtain ⟨_, _, factors, words, least, _⟩ := primitiveRoot_exact Modulus.seventeen (by decide)
  exact ⟨factors, words, least⟩

end Residue

end FastAlgebra
