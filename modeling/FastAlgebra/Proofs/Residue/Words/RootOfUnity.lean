import Mathlib
import FastAlgebra.Residue.Words.RootOfUnity
import FastAlgebra.Proofs.Residue.RootOfUnity
import FastAlgebra.Proofs.Residue.Words

/-! Roots of unity on words are those of the residues. The numbers of zeros that are counted on the
way are below the width, so no shift moves by the whole of it, and the search ends before its word
could wrap around. Modulo a prime, there is a root for every power of two that divides the group
order, it has that order, and all roots are powers of a single one.
-/

namespace FastAlgebra

-----------------------------------------------------------------------------------------
-- Shifts
-----------------------------------------------------------------------------------------

namespace CheckedWord

variable {v w : Nat}

theorem exists_shiftRight_eq {x : BitVec w} {places : BitVec v} (fits : places.toNat < w)
    : ∃ z, shiftRight x places = some z ∧ z.toNat = x.toNat >>> places.toNat := by
  refine ⟨x >>> places, if_pos fits, ?_⟩
  rw [BitVec.ushiftRight_eq', BitVec.toNat_ushiftRight]

/-- One, shifted within the width, is a power of two. -/
theorem exists_shiftLeft_one_eq {places : BitVec v} (fits : places.toNat < 64)
    : ∃ z, shiftLeft (1 : BitVec 64) places = some z ∧ z.toNat = 2 ^ places.toNat := by
  have below : 2 ^ places.toNat < 2 ^ 64 := Nat.pow_lt_pow_right Nat.one_lt_two fits
  refine ⟨(1 : BitVec 64) <<< places, if_pos fits, ?_⟩
  rw [BitVec.shiftLeft_eq', BitVec.toNat_shiftLeft, toNat_one, Nat.one_shiftLeft,
    Nat.mod_eq_of_lt below]

/-- The zeros behind the last digit one count the factors of two, and they leave a place for it. -/
theorem toNat_trailingZeros {x : BitVec 64} (nonzero : x ≠ 0)
    : (trailingZeros x).toNat = factorsOfTwo x.toNat ∧ (trailingZeros x).toNat < 64 := by
  have one := BitVec.getLsbD_true_ctz_of_ne_zero nonzero
  have place : x.ctz.toNat < 64 := BitVec.lt_of_getLsbD one
  have narrowed : (trailingZeros x).toNat = x.ctz.toNat := by
    rw [trailingZeros, BitVec.toNat_setWidth, Nat.mod_eq_of_lt (by omega)]
  refine ⟨?_, by rwa [narrowed]⟩
  rw [narrowed]
  refine (factorsOfTwo_eq_of_testBit ?_ ?_).symm
  · rwa [BitVec.testBit_toNat]
  · intro i before
    rw [BitVec.testBit_toNat]
    exact BitVec.getLsbD_false_of_lt_ctz before

end CheckedWord

namespace ResidueWord

variable {m : Modulus}

open Residue

-----------------------------------------------------------------------------------------
-- The basic root
-----------------------------------------------------------------------------------------

/-- Every word below the modulus is raised to the reduced power of its number. -/
theorem pow_eq_powMod {q : BitVec 64} (below : q.toNat < m.toNat) (exponent : BitVec 64)
    : pow m q ⟨exponent⟩
      = some (ofNat (m.powMod q.toNat exponent.toNat) : Residue m).bits := by
  have number : (ofNat q.toNat : Residue m).toNat = q.toNat := by
    rw [toNat_ofNat, Nat.mod_eq_of_lt below]
  have word : q = (ofNat q.toNat : Residue m).bits := by
    apply BitVec.eq_of_toNat_eq
    rw [toNat_bits, number]
  rw [word, pow_eq, Residue.pow, ← word, number]
  rfl

/-- Where a word has no such power and there is a next one, the search goes on with that. -/
theorem oddPowerFrom_of_add {less half odd q sign next : BitVec 64} (below : q < m.bits)
    (power : pow m q ⟨half⟩ = some sign) (other : sign ≠ less)
    (added : CheckedWord.add q 1 = some next)
    : oddPowerFrom m less half odd q = oddPowerFrom m less half odd next := by
  rw [oddPowerFrom, dif_pos below, power, Option.bind_eq_bind, Option.bind_some, if_neg other]
  split
  · rename_i found same
    obtain rfl := Option.some.inj (added.symm.trans same)
    rfl
  · rename_i none
    exact absurd (added.symm.trans none) (Option.some_ne_none _)

/-- The power on words is the group order exactly where that on numbers is. -/
theorem sign_eq_iff {less half : BitVec 64} (lessNumber : less.toNat = m.toNat - 1)
    (halfNumber : half.toNat = (m.toNat - 1) / 2) (q : Nat)
    : (ofNat (m.powMod q half.toNat) : Residue m).bits = less
      ↔ (m.powMod q ((m.toNat - 1) / 2) == m.toNat - 1) = true := by
  rw [← BitVec.toNat_inj, toNat_bits, toNat_ofNat, Nat.mod_eq_of_lt (m.powMod_lt _ _), lessNumber,
    halfNumber, beq_iff_eq]

/-- The search on words is the one on numbers, by induction on its run. The word that is tried stays
below the modulus, so the next one is one more.
-/
theorem oddPowerFrom_eq (large : 1 < m.toNat) {less half odd : BitVec 64}
    (lessNumber : less.toNat = m.toNat - 1) (halfNumber : half.toNat = (m.toNat - 1) / 2)
    (q : BitVec 64)
    : oddPowerFrom m less half odd q
      = some (ofNat ((leastBelow? (fun k => m.powMod k ((m.toNat - 1) / 2) == m.toNat - 1)
          q.toNat m.toNat).elim 1 (m.powMod · odd.toNat)) : Residue m).bits := by
  have small := m.toNat_lt_half
  have isBelow {q : BitVec 64} : q < m.bits ↔ q.toNat < m.toNat := by
    rw [BitVec.lt_def, m.toNat_bits]
  have test := sign_eq_iff lessNumber halfNumber
  generalize start : q.toNat = k
  fun_induction leastBelow? (fun k => m.powMod k ((m.toNat - 1) / 2) == m.toNat - 1) k m.toNat
    generalizing q with
  | case1 k below passes =>
      subst start
      rw [oddPowerFrom, dif_pos (isBelow.mpr below), pow_eq_powMod below, Option.bind_eq_bind,
        Option.bind_some, if_pos ((test _).mpr passes), pow_eq_powMod below]
      rfl
  | case2 k below fails ih =>
      subst start
      obtain ⟨next, added, number⟩ := CheckedWord.exists_add_eq (x := q) (y := 1)
        (by rw [CheckedWord.toNat_one]; omega)
      rw [CheckedWord.toNat_one] at number
      rw [oddPowerFrom_of_add (isBelow.mpr below) (pow_eq_powMod below ⟨_⟩)
        (fun same => fails ((test _).mp same)) added]
      exact ih next number
  | case3 k reached =>
      subst start
      rw [oddPowerFrom, dif_neg (fun below => reached (isBelow.mp below))]
      apply eq_some_bits rfl
      rw [CheckedWord.toNat_one, Option.elim_none, toNat_ofNat, Nat.mod_eq_of_lt large]

/-- The group order is a word whose zeros behind the last digit one count up to the adicity. -/
theorem exists_less_eq (large : 1 < m.toNat)
    : ∃ less, CheckedWord.sub m.bits 1 = some less ∧ less.toNat = m.toNat - 1
        ∧ (CheckedWord.trailingZeros less).toNat = m.twoAdicity := by
  obtain ⟨less, taken, number⟩ := CheckedWord.exists_sub_eq (x := m.bits) (y := 1)
    (by rw [m.toNat_bits, CheckedWord.toNat_one]; exact large.le)
  rw [m.toNat_bits, CheckedWord.toNat_one] at number
  have nonzero : less ≠ 0 := by
    rintro rfl
    have none : (0 : BitVec 64).toNat = 0 := rfl
    omega
  refine ⟨less, taken, number, ?_⟩
  rw [(CheckedWord.toNat_trailingZeros nonzero).1, number, Modulus.twoAdicity]

/-- The basic root on words is that of the residues. -/
theorem dyadicRoot_eq (large : 1 < m.toNat)
    : dyadicRoot m = some (Residue.dyadicRoot m).bits := by
  have two : (2 : BitVec 64).toNat = 2 := rfl
  have small : m.bits ≤ 2 ↔ m.toNat ≤ 2 := by rw [BitVec.le_def, m.toNat_bits, two]
  rw [dyadicRoot, Residue.dyadicRoot, Modulus.dyadicRoot]
  simp only [small]
  split
  · rw [one_eq]
    apply congrArg (some ∘ Residue.bits)
    exact ext_toNat (by rw [toNat_ofNat, Nat.mod_mod]; exact toNat_ofNat 1)
  · obtain ⟨less, taken, number, zeros⟩ := exists_less_eq large
    have within : (CheckedWord.trailingZeros less).toNat < 64 := by
      have := m.twoAdicity_lt large
      omega
    obtain ⟨odd, shifted, oddNumber⟩ := CheckedWord.exists_shiftRight_eq (x := less) within
    rw [zeros, number] at oddNumber
    have halfNumber : (less / 2).toNat = (m.toNat - 1) / 2 := by
      rw [BitVec.toNat_udiv, number, two]
    rw [taken, Option.bind_eq_bind, Option.bind_some, shifted, Option.bind_some,
      oddPowerFrom_eq large number halfNumber, two, oddNumber, ← Modulus.leastNonSquare?]
    cases m.leastNonSquare? with
    | some q => rfl
    | none => rfl

/-- Roots on words are those of the residues. Orders that are no powers of two have none, whatever
their zeros are.
-/
theorem rootOfUnity?_eq (large : 1 < m.toNat) (order : UInt64)
    : rootOfUnity? m order.toBitVec
      = some ((Residue.rootOfUnity? order.toNat : Option (Residue m)).map Residue.bits) := by
  obtain ⟨less, taken, -, zeros⟩ := exists_less_eq large
  have orderNumber : order.toBitVec.toNat = order.toNat := UInt64.toNat_toBitVec order
  rw [rootOfUnity?, Residue.rootOfUnity?, taken, Option.bind_eq_bind, Option.bind_some, orderNumber]
  by_cases dyadic : IsDyadic order.toNat
  · obtain ⟨s, power⟩ := (isDyadic_iff _).mp dyadic
    have nonzero : order.toBitVec ≠ 0 := by
      intro none
      have zero : (0 : BitVec 64).toNat = 0 := rfl
      have positive := Nat.two_pow_pos s
      rw [none, zero] at orderNumber
      omega
    have level : (CheckedWord.trailingZeros order.toBitVec).toNat = order.toNat.log2 := by
      rw [(CheckedWord.toNat_trailingZeros nonzero).1, orderNumber, power, factorsOfTwo_two_pow,
        Nat.log2_two_pow]
    simp only [BitVec.le_def, level, zeros]
    split
    · rename_i supported
      obtain ⟨places, left, placesNumber⟩ := CheckedWord.exists_sub_eq
        (x := CheckedWord.trailingZeros less) (y := CheckedWord.trailingZeros order.toBitVec)
        (by rw [level, zeros]; exact supported.2)
      rw [zeros, level] at placesNumber
      have within : places.toNat < 64 := by
        have := m.twoAdicity_lt large
        omega
      obtain ⟨exponent, shifted, exponentNumber⟩ := CheckedWord.exists_shiftLeft_one_eq within
      rw [placesNumber, ← powerOfTwo_eq] at exponentNumber
      have root : pow m (Residue.dyadicRoot m).bits ⟨exponent⟩
          = some ((Residue.dyadicRoot m).pow exponent.toNat).bits := pow_eq _ _
      rw [exponentNumber] at root
      simp only [left, shifted, dyadicRoot_eq large, root, Option.bind_eq_bind, Option.bind_some,
        Option.pure_def, Option.map_some]
    · rfl
  · simp only [dyadic, false_and, if_false]
    rfl

end ResidueWord

-----------------------------------------------------------------------------------------
-- Orders
-----------------------------------------------------------------------------------------

namespace Residue

variable {m : Modulus}

/-- The roots of two levels, one above the other, are a root and its square. -/
theorem sq_eq_of_rootOfUnity?_eq (large : 1 < m.toNat) {k : Nat} {y z : Residue m}
    (double : rootOfUnity? (2 * k) = some y) (single : rootOfUnity? k = some z)
    : y ^ 2 = z := by
  obtain ⟨s, rfl, -, rfl⟩ := (rootOfUnity?_eq_some_iff large k z).mp single
  rw [← pow_succ'] at double
  obtain ⟨t, levels, divides, rfl⟩ := (rootOfUnity?_eq_some_iff large _ y).mp double
  obtain rfl := Nat.pow_right_injective (le_refl 2) levels
  exact root_succ_sq ((two_pow_dvd_iff (by omega) (s + 1)).mp divides)

theorem orderOf_dyadicRoot [Fact m.toNat.Prime]
    : orderOf (dyadicRoot m) = 2 ^ m.twoAdicity := by
  have top : root m m.twoAdicity = dyadicRoot m := by
    rw [root, Nat.sub_self, pow_zero, pow_one]
  rw [← top, orderOf_root le_rfl]

/-- Modulo a prime there is a root exactly for the powers of two that divide the group order, and
its multiplicative order is what was asked for. From level to level the roots are squares, so all of
them are powers of the one whose order is the highest. On words no step, and so no shift, leaves its
width.
-/
theorem rootOfUnity_exact (m : Modulus) (prime : m.toNat.Prime)
    : (∀ order : Nat,
          (∃ z : Residue m, rootOfUnity? order = some z)
            ↔ (∃ k, order = 2 ^ k) ∧ order ∣ m.toNat - 1)
      ∧ (∀ (order : Nat) (z : Residue m), rootOfUnity? order = some z
          → orderOf z = order ∧ ∃ exponent, z = dyadicRoot m ^ exponent)
      ∧ (∀ (k : Nat) (y z : Residue m), rootOfUnity? (2 * k) = some y → rootOfUnity? k = some z
          → y ^ 2 = z)
      ∧ orderOf (dyadicRoot m) = 2 ^ m.twoAdicity
      ∧ ResidueWord.dyadicRoot m = some (dyadicRoot m).bits
      ∧ ∀ order : UInt64,
          ResidueWord.rootOfUnity? m order.toBitVec
            = some ((rootOfUnity? order.toNat : Option (Residue m)).map bits) := by
  have : Fact m.toNat.Prime := ⟨prime⟩
  have large := prime.one_lt
  refine ⟨?existence, ?order, ?squares, orderOf_dyadicRoot, ResidueWord.dyadicRoot_eq large,
    ResidueWord.rootOfUnity?_eq large⟩
  case existence =>
    intro order
    constructor
    · rintro ⟨z, found⟩
      obtain ⟨s, rfl, divides, -⟩ := (rootOfUnity?_eq_some_iff large order z).mp found
      exact ⟨⟨s, rfl⟩, divides⟩
    · rintro ⟨⟨s, rfl⟩, divides⟩
      exact ⟨root m s, (rootOfUnity?_eq_some_iff large _ _).mpr ⟨s, rfl, divides, rfl⟩⟩
  case order =>
    intro order z found
    obtain ⟨s, rfl, divides, rfl⟩ := (rootOfUnity?_eq_some_iff large order z).mp found
    exact ⟨orderOf_root ((two_pow_dvd_iff (by omega) s).mp divides), _, rfl⟩
  case squares =>
    exact fun k y z => sq_eq_of_rootOfUnity?_eq large

theorem rootOfUnity_exact_seventeen
    : (∃ z : Residue Modulus.seventeen, rootOfUnity? 8 = some z ∧ orderOf z = 8)
      ∧ (¬ ∃ z : Residue Modulus.seventeen, rootOfUnity? 32 = some z)
      ∧ orderOf (dyadicRoot Modulus.seventeen) = 16
      ∧ ResidueWord.rootOfUnity? Modulus.seventeen 32 = some none := by
  obtain ⟨existence, orders, -, basic, -, words⟩ :=
    rootOfUnity_exact Modulus.seventeen (by decide)
  have modulus : Modulus.seventeen.toNat = 17 := rfl
  rw [modulus] at existence
  obtain ⟨z, found⟩ := (existence 8).mpr ⟨⟨3, by norm_num⟩, by decide⟩
  obtain ⟨order, -⟩ := orders 8 z found
  have tooLong : ¬ ∃ z : Residue Modulus.seventeen, rootOfUnity? 32 = some z :=
    fun found => absurd ((existence 32).mp found).2 (by decide)
  have missing : (rootOfUnity? 32 : Option (Residue Modulus.seventeen)) = none :=
    Option.eq_none_iff_forall_ne_some.mpr fun z found => tooLong ⟨z, found⟩
  refine ⟨⟨z, found, order⟩, tooLong, ?_, ?_⟩
  · rw [basic, Modulus.twoAdicity_seventeen]
    norm_num
  · rw [← Option.map_none (f := bits), ← missing]
    exact words 32

end Residue

end FastAlgebra
