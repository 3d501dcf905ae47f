import Mathlib
import FastAlgebra.Product.Modular.InPlace
import FastAlgebra.Proofs.Entries
import FastAlgebra.Proofs.Residue.Words.Inverse
import FastAlgebra.Proofs.Transform.InPlace

/-! Products modulo any number where they stand. The loop over mirrored pairs comes to the products
of halves at all indices, because an index up to the middle writes its own entries and those of its
mirror. No word leaves its width when the halves are joined, whatever they are rounded to.
-/

namespace FastAlgebra

variable {K : Type} [RealScalar K]

/-- The mask and the shift cut a word where the remainder and the quotient do. -/
theorem splitWord_eq (v : UInt32) : (splitWord v : Complex K) = splitCoeff v := by
  have mask : ((1 <<< UInt32.ofNat splitBits) - 1 : UInt32).toNat = 2 ^ splitBits - 1 := rfl
  have low : (v &&& ((1 <<< UInt32.ofNat splitBits) - 1)).toNat = v.toNat % 2 ^ splitBits := by
    rw [UInt32.toNat_and, mask, Nat.and_two_pow_sub_one_eq_mod]
  have high : (v >>> UInt32.ofNat splitBits).toNat = v.toNat / 2 ^ splitBits := by
    rw [UInt32.toNat_shiftRight, Nat.shiftRight_eq_div_pow]
    rfl
  rw [splitWord, splitCoeff, low, high]
  rfl

-----------------------------------------------------------------------------------------
-- Mirrored pairs
-----------------------------------------------------------------------------------------

theorem pairing_mirror (n : Nat) : Pairing (mirror n) n where
  within _ inside := Nat.mod_lt _ (by omega)
  involutive _ inside := mirror_mirror inside

theorem halvesAt_eq (b : Array (Complex K)) (i : Nat)
    : halvesAt b i = halvesOf b.size (b.getD i 0) (b.getD (mirror b.size i) 0) :=
  rfl

/-- Up to the middle the halves are read at the index itself. -/
theorem halfProductsAt_of_le {a b : Array (Complex K)} {i : Nat} (h : i ≤ a.size / 2)
    : halfProductsAt a b i
      = (a.getD (mirror a.size i) 0 * (halvesAt b i).1.conj,
          a.getD (mirror a.size i) 0 * (halvesAt b i).2.conj) := by
  simp only [halfProductsAt, if_pos h]
  rfl

/-- Past the middle they are read at the mirrored index. -/
theorem halfProductsAt_mirror {a b : Array (Complex K)} {i : Nat} (h : i ≤ a.size / 2)
    (apart : mirror a.size i ≠ i)
    : halfProductsAt a b (mirror a.size i)
      = (a.getD i 0 * (halvesAt b i).1, a.getD i 0 * (halvesAt b i).2) := by
  have positive : 0 < i := by
    rw [Nat.pos_iff_ne_zero]
    rintro rfl
    simp [mirror] at apart
  have index : mirror a.size i = a.size - i := Nat.mod_eq_of_lt (by omega)
  rw [index] at apart ⊢
  have back : a.size - (a.size - i) = i := Nat.sub_sub_self (by omega)
  simp only [halfProductsAt, if_neg (by omega : ¬ a.size - i ≤ a.size / 2), back,
    Nat.mod_eq_of_lt (by omega : i < a.size)]

namespace ImagePair

variable {images : ImagePair K} {s i j : Nat}

/-- A round writes the entries of its index and of the mirrored one. -/
theorem multiplyAt?_eq (size : images.a.size = 2 ^ s) (mirrored : mirror (2 ^ s) i = j)
    {wholeHere wholeThere here there low high : Complex K}
    (aHere : images.a[i]? = some wholeHere) (aThere : images.a[j]? = some wholeThere)
    (bHere : images.b[i]? = some here) (bThere : images.b[j]? = some there)
    (halves : halvesOf (2 ^ s) here there = (low, high))
    : ∃ next, images.multiplyAt? i = some next
        ∧ next.a = (images.a.setIfInBounds j (wholeHere * low)).setIfInBounds i
            (wholeThere * low.conj)
        ∧ next.b = (images.b.setIfInBounds j (wholeHere * high)).setIfInBounds i
            (wholeThere * high.conj) := by
  simp only [multiplyAt?, size, mask_eq_mirror, mirrored, bHere, bThere, halves,
    Option.bind_eq_bind, Option.bind_some]
  split
  · rename_i alone
    subst alone
    obtain rfl : wholeHere = wholeThere := Option.some.inj (aHere.symm.trans aThere)
    simp [aHere]
  · rename_i apart
    have insideHere := (Array.getElem?_eq_some_iff.mp aHere).1
    have insideThere := (Array.getElem?_eq_some_iff.mp aThere).1
    have swapped := swapIfInBounds_eq aHere aThere
    have moved : (images.a.swapIfInBounds i j)[j]? = some wholeHere := by
      simp [swapped, insideThere]
    have written : (images.a.swapIfInBounds i j).setIfInBounds j (wholeHere * low)
        = (images.a.setIfInBounds j (wholeHere * low)).setIfInBounds i wholeThere := by
      rw [swapped, Array.setIfInBounds_setIfInBounds, Array.setIfInBounds_comm _ _ (Ne.symm apart)]
    have kept : ((images.a.setIfInBounds j (wholeHere * low)).setIfInBounds i wholeThere)[i]?
        = some wholeThere := by
      simp [insideHere]
    simp only [moved, written, kept, Option.bind_some, Array.setIfInBounds_setIfInBounds]
    exact ⟨_, rfl, rfl, rfl⟩

/-- The pairs with an index below `count` hold products of halves, the others the transforms. -/
structure MultipliedBelow (images : ImagePair K) (count : Nat) (next : ImagePair K) : Prop where
  sizeA : next.a.size = images.a.size
  sizeB : next.b.size = images.b.size
  met : ∀ p < images.a.size, p < count ∨ mirror images.a.size p < count →
    next.a[p]? = some (halfProductsAt images.a images.b p).1
      ∧ next.b[p]? = some (halfProductsAt images.a images.b p).2
  unmet : ∀ p < images.a.size, ¬ (p < count ∨ mirror images.a.size p < count) →
    next.a[p]? = images.a[p]? ∧ next.b[p]? = images.b[p]?

namespace MultipliedBelow

variable {next after : ImagePair K} {count : Nat}

/-- With the products of one more pair written, that pair holds them as well. -/
theorem write (multiplied : MultipliedBelow images i next) (inside : i < images.a.size)
    (sizes : images.b.size = images.a.size) (mirrored : mirror images.a.size i = j)
    (afterA
      : after.a
        = (next.a.setIfInBounds j (halfProductsAt images.a images.b j).1).setIfInBounds i
          (halfProductsAt images.a images.b i).1)
    (afterB
      : after.b
        = (next.b.setIfInBounds j (halfProductsAt images.a images.b j).2).setIfInBounds i
          (halfProductsAt images.a images.b i).2)
    : MultipliedBelow images (i + 1) after := by
  have there : j < images.a.size := mirrored ▸ (pairing_mirror _).within i inside
  have back : mirror images.a.size j = i := mirrored ▸ (pairing_mirror _).involutive i inside
  have aSize := multiplied.sizeA
  have bSize := multiplied.sizeB.trans sizes
  refine ⟨by simp [afterA, aSize], by simp [afterB, multiplied.sizeB], ?_, ?_⟩
  · intro p below met
    rw [afterA, afterB]
    simp only [Array.getElem?_setIfInBounds, Array.size_setIfInBounds, aSize, bSize]
    by_cases same : i = p
    · subst same
      simp [inside]
    · by_cases opposite : j = p
      · subst opposite
        simp [same, there]
      · have apart : mirror images.a.size p ≠ i := by
          intro turned
          apply opposite
          rw [← mirrored, ← turned, (pairing_mirror _).involutive p below]
        simpa [same, opposite] using multiplied.met p below (by omega)
  · intro p below unmet
    have same : i ≠ p := by omega
    have opposite : j ≠ p := by
      rintro rfl
      omega
    rw [afterA, afterB]
    simpa [Array.getElem?_setIfInBounds, same, opposite]
      using multiplied.unmet p below (by omega)

/-- A round up to the middle meets a pair that no round before it has met. -/
theorem exists_multiplyAt?_eq (multiplied : MultipliedBelow images i next)
    (sizeA : images.a.size = 2 ^ s) (sizeB : images.b.size = 2 ^ s) (within : i ≤ images.a.size / 2)
    : ∃ after, next.multiplyAt? i = some after ∧ MultipliedBelow images (i + 1) after := by
  have positive := Nat.two_pow_pos s
  have inside : i < images.a.size := by omega
  have sizes := sizeB.trans sizeA.symm
  obtain ⟨j, mirrored⟩ : ∃ j, mirror images.a.size i = j := ⟨_, rfl⟩
  have there : j < images.a.size := mirrored ▸ (pairing_mirror _).within i inside
  have back : mirror images.a.size j = i := mirrored ▸ (pairing_mirror _).involutive i inside
  have later : i ≤ j := by
    rw [← mirrored, mirror]
    rcases Nat.eq_zero_or_pos i with rfl | nonzero
    · exact Nat.zero_le _
    · rw [Nat.mod_eq_of_lt (by omega)]
      omega
  have here := multiplied.unmet i inside (by omega)
  have other := multiplied.unmet j there (by omega)
  have aHere := here.1.trans (getElem?_eq_getD inside 0)
  have bHere := here.2.trans (getElem?_eq_getD (sizes ▸ inside) 0)
  have aThere := other.1.trans (getElem?_eq_getD there 0)
  have bThere := other.2.trans (getElem?_eq_getD (sizes ▸ there) 0)
  have halves : halvesOf (2 ^ s) (images.b.getD i 0) (images.b.getD j 0)
      = ((halvesAt images.b i).1, (halvesAt images.b i).2) := by
    rw [halvesAt_eq, sizeB, ← sizeA, mirrored]
  obtain ⟨after, found, afterA, afterB⟩ := multiplyAt?_eq (multiplied.sizeA.trans sizeA)
    (sizeA ▸ mirrored) aHere aThere bHere bThere halves
  have products := halfProductsAt_of_le (b := images.b) within
  rw [mirrored] at products
  refine ⟨after, found, multiplied.write inside sizes mirrored ?_ ?_⟩
  all_goals
    by_cases alone : j = i
    · subst alone
      simp only [afterA, afterB, products, Array.setIfInBounds_setIfInBounds]
    · have turned := halfProductsAt_mirror (b := images.b) within (mirrored ▸ alone)
      rw [mirrored] at turned
      simp only [afterA, afterB, products, turned]

/-- The loop as far as the middle, by induction on its rounds. -/
theorem exists_foldlM_eq (sizeA : images.a.size = 2 ^ s) (sizeB : images.b.size = 2 ^ s)
    (within : count ≤ images.a.size / 2 + 1)
    : ∃ next, (List.range count).foldlM multiplyAt? images = some next
        ∧ MultipliedBelow images count next := by
  induction count with
  | zero => exact ⟨images, rfl, rfl, rfl, fun p _ met => by omega, fun p _ _ => ⟨rfl, rfl⟩⟩
  | succ count ih =>
      obtain ⟨next, before, multiplied⟩ := ih (by omega)
      obtain ⟨after, round, further⟩ := multiplied.exists_multiplyAt?_eq sizeA sizeB (by omega)
      refine ⟨after, ?_, further⟩
      rw [List.range_succ, List.foldlM_append, before]
      simp [round]

end MultipliedBelow

/-- An index or its mirror is at most the middle. -/
theorem le_or_mirror_le (n : Nat) {p : Nat} (below : p < n)
    : p < n / 2 + 1 ∨ mirror n p < n / 2 + 1 := by
  rcases Nat.lt_or_ge p (n / 2 + 1) with first | second
  · exact .inl first
  · right
    rw [mirror, Nat.mod_eq_of_lt (by omega)]
    omega

/-- The loop up to the middle meets every pair. -/
theorem exists_multiply?_eq (sizeA : images.a.size = 2 ^ s) (sizeB : images.b.size = 2 ^ s)
    : ∃ next, images.multiply? = some next
        ∧ next.a.toList = (List.range (2 ^ s)).map
            (fun p => (halfProductsAt images.a images.b p).1)
        ∧ next.b.toList = (List.range (2 ^ s)).map
            (fun p => (halfProductsAt images.a images.b p).2) := by
  obtain ⟨next, found, multiplied⟩ :=
    MultipliedBelow.exists_foldlM_eq sizeA sizeB (Nat.le_refl _)
  have met : ∀ p < 2 ^ s, next.a[p]? = some (halfProductsAt images.a images.b p).1
      ∧ next.b[p]? = some (halfProductsAt images.a images.b p).2 := by
    rw [← sizeA]
    exact fun p below => multiplied.met p below (le_or_mirror_le _ below)
  refine ⟨next, found, ?_, ?_⟩
  · exact congrArg Array.toList
      (eq_toArray_map_range (multiplied.sizeA.trans sizeA) fun p below => (met p below).1)
  · exact congrArg Array.toList
      (eq_toArray_map_range (multiplied.sizeB.trans sizeB) fun p below => (met p below).2)

end ImagePair

-----------------------------------------------------------------------------------------
-- Joining the halves on words
-----------------------------------------------------------------------------------------

/-- The word is the remainder of the number by a modulus. -/
def IsRemainder (m word : BitVec 64) (number : Int) : Prop :=
  word.toInt = number % m.toInt

/-- The moduli whose remainders can move up by the bits of a low half. -/
structure SmallModulus (m : BitVec 64) : Prop where
  positive : 0 < m.toInt
  small : m.toInt < 2 ^ 31

namespace SmallModulus

variable {m x y : BitVec 64} {number other : Int}

theorem bounds (modulus : SmallModulus m) (number : Int)
    : 0 ≤ number % m.toInt ∧ number % m.toInt < 2 ^ 31 :=
  ⟨Int.emod_nonneg number modulus.positive.ne',
    (Int.emod_lt_of_pos number modulus.positive).trans modulus.small⟩

theorem exists_leastRemainder_eq (modulus : SmallModulus m) (x : BitVec 64)
    : ∃ z, CheckedSigned.leastRemainder x m = some z ∧ IsRemainder m z x.toInt :=
  CheckedSigned.exists_leastRemainder_eq (w := 63) modulus.positive

/-- A number that is not negative leaves its remainder. -/
theorem exists_remainder_eq (modulus : SmallModulus m) (nonneg : 0 ≤ x.toInt)
    : ∃ z, CheckedSigned.remainder x m = some z ∧ IsRemainder m z x.toInt := by
  obtain ⟨z, divided, isRest⟩ :=
    CheckedSigned.exists_remainder_eq (w := 63) (x := x) modulus.positive
  exact ⟨z, divided, by rw [IsRemainder, isRest, Int.tmod_eq_emod_of_nonneg nonneg]⟩

theorem exists_add_eq (modulus : SmallModulus m) (left : IsRemainder m x number)
    (right : IsRemainder m y other)
    : ∃ z, CheckedSigned.add x y = some z
        ∧ z.toInt = number % m.toInt + other % m.toInt := by
  have boundsLeft := modulus.bounds number
  have boundsRight := modulus.bounds other
  rw [IsRemainder] at left right
  rw [← left, ← right]
  exact CheckedSigned.exists_add_eq (w := 63) (abs_lt.mpr ⟨by omega, by omega⟩)

theorem exists_shiftLeft_eq (modulus : SmallModulus m) (remainder : IsRemainder m x number)
    : ∃ z, CheckedSigned.shiftLeft x splitBits = some z
        ∧ z.toInt = number % m.toInt * 2 ^ splitBits := by
  have bounds := modulus.bounds number
  rw [IsRemainder] at remainder
  rw [← remainder]
  apply CheckedSigned.exists_shiftLeft_eq (w := 63)
  rw [splitBits, abs_lt]
  omega

theorem exists_raiseWord?_eq (modulus : SmallModulus m) (remainder : IsRemainder m x number)
    : ∃ z, raiseWord? m x = some z ∧ IsRemainder m z (number * 2 ^ splitBits) := by
  have bounds := modulus.bounds number
  obtain ⟨raised, shifted, isRaised⟩ := modulus.exists_shiftLeft_eq remainder
  obtain ⟨z, divided, isRest⟩ := modulus.exists_remainder_eq (x := raised)
    (by rw [isRaised]; exact mul_nonneg bounds.1 (by positivity))
  refine ⟨z, ?_, ?_⟩
  · rw [raiseWord?, shifted, Option.bind_eq_bind, Option.bind_some, divided]
  · rw [IsRemainder, isRest, isRaised]
    exact (Int.mod_modEq number m.toInt).mul_right (2 ^ splitBits)

/-- Two remainders are added and reduced once more. -/
theorem exists_addReduced_eq (modulus : SmallModulus m) (left : IsRemainder m x number)
    (right : IsRemainder m y other)
    : ∃ sum z, CheckedSigned.add x y = some sum ∧ CheckedSigned.remainder sum m = some z
        ∧ IsRemainder m z (number + other) := by
  obtain ⟨sum, added, isSum⟩ := modulus.exists_add_eq left right
  obtain ⟨z, divided, isRest⟩ := modulus.exists_remainder_eq (x := sum) (by
    rw [isSum]
    exact add_nonneg (modulus.bounds _).1 (modulus.bounds _).1)
  refine ⟨sum, z, added, divided, ?_⟩
  rw [IsRemainder, isRest, isSum, ← Int.add_emod]

/-- A sum of two remainders and of a third one that moves up is reduced only at its end. -/
theorem exists_addRaised_eq (modulus : SmallModulus m) {z : BitVec 64} {third : Int}
    (left : IsRemainder m x number) (middle : IsRemainder m y other) (right : IsRemainder m z third)
    : ∃ sum raised total rest,
        CheckedSigned.add x y = some sum
        ∧ CheckedSigned.shiftLeft z splitBits = some raised
        ∧ CheckedSigned.add sum raised = some total
        ∧ CheckedSigned.remainder total m = some rest
        ∧ IsRemainder m rest (number + other + third * 2 ^ splitBits) := by
  obtain ⟨sum, added, isSum⟩ := modulus.exists_add_eq left middle
  obtain ⟨raised, shifted, isRaised⟩ := modulus.exists_shiftLeft_eq right
  have boundsLeft := modulus.bounds number
  have boundsMiddle := modulus.bounds other
  have boundsRight := modulus.bounds third
  rw [splitBits] at isRaised
  obtain ⟨total, addedUp, isTotal⟩ :=
    CheckedSigned.exists_add_eq (w := 63) (x := sum) (y := raised) (abs_lt.mpr ⟨by omega, by omega⟩)
  obtain ⟨rest, divided, isRest⟩ := modulus.exists_remainder_eq (x := total) (by omega)
  refine ⟨sum, raised, total, rest, added, shifted, addedUp, divided, ?_⟩
  rw [IsRemainder, isRest, isTotal, isSum, isRaised]
  exact ((Int.mod_modEq number _).add (Int.mod_modEq other _)).add
    ((Int.mod_modEq third _).mul_right _)

/-- A remainder is a word of 32 bits. -/
theorem exists_convert_eq (modulus : SmallModulus m) (remainder : IsRemainder m x number)
    : ∃ z, CheckedWord.convert 32 x = some z ∧ (z.toNat : Int) = number % m.toInt := by
  have bounds := modulus.bounds number
  have unsigned := BitVec.toInt_eq_toNat_cond x
  rw [IsRemainder] at remainder
  obtain ⟨z, converted, same⟩ := CheckedWord.exists_convert_eq (v := 32) (x := x)
    (by split at unsigned <;> omega)
  refine ⟨z, converted, ?_⟩
  split at unsigned <;> omega

end SmallModulus

/-- The number that four products of halves make up. -/
def joinedNumber (low inner outer high : Int) : Int :=
  low + (inner + outer) * 2 ^ splitBits + high * 2 ^ (2 * splitBits)

/-- Joining words has a result for all products of halves, whatever they are rounded to. -/
theorem SmallModulus.exists_joinWords?_eq {m : BitVec 64} (modulus : SmallModulus m)
    (first second : Complex K)
    : ∃ word, joinWords? m first second = some word
        ∧ (word.toNat : Int)
            = joinedNumber (RealScalar.round first.re).toInt (RealScalar.round first.im).toInt
                (RealScalar.round second.re).toInt (RealScalar.round second.im).toInt
              % m.toInt := by
  obtain ⟨low, lowFound, isLow⟩ :=
    modulus.exists_leastRemainder_eq (RealScalar.round first.re).toBitVec
  obtain ⟨inner, innerFound, isInner⟩ :=
    modulus.exists_leastRemainder_eq (RealScalar.round first.im).toBitVec
  obtain ⟨outer, outerFound, isOuter⟩ :=
    modulus.exists_leastRemainder_eq (RealScalar.round second.re).toBitVec
  obtain ⟨high, highFound, isHigh⟩ :=
    modulus.exists_leastRemainder_eq (RealScalar.round second.im).toBitVec
  obtain ⟨crossed, middle, crossedFound, middleFound, isMiddle⟩ :=
    modulus.exists_addReduced_eq isInner isOuter
  obtain ⟨raised, raisedFound, isRaised⟩ := modulus.exists_raiseWord?_eq isMiddle
  obtain ⟨once, onceFound, isOnce⟩ := modulus.exists_raiseWord?_eq isHigh
  obtain ⟨sum, twice, total, joined, sumFound, twiceFound, totalFound, joinedFound, isJoined⟩ :=
    modulus.exists_addRaised_eq isLow isRaised isOnce
  obtain ⟨word, converted, isWord⟩ := modulus.exists_convert_eq isJoined
  refine ⟨⟨word⟩, ?_, ?_⟩
  · simp only [joinWords?, lowFound, innerFound, outerFound, highFound, crossedFound, middleFound,
      raisedFound, sumFound, onceFound, twiceFound, totalFound, joinedFound, converted,
      Option.bind_eq_bind, Option.bind_some]
  · rw [joinedNumber, two_mul, pow_add, ← mul_assoc]
    exact isWord

namespace CheckedSigned

variable {x y m : Int64} {found : BitVec 64}

theorem toBitVec_add_of_eq (exact : add x.toBitVec y.toBitVec = some found)
    : (x + y).toBitVec = found :=
  eq_of_standingFor_eq exact

theorem toBitVec_shiftLeft_of_eq (exact : shiftLeft x.toBitVec splitBits = some found)
    : (x <<< Int64.ofNat splitBits).toBitVec = found := by
  rw [← eq_of_standingFor_eq exact, Int64.toBitVec_shiftLeft]
  rfl

theorem toBitVec_mod_of_eq (exact : remainder x.toBitVec m.toBitVec = some found)
    : (x % m).toBitVec = found := by
  obtain ⟨_, _, rest⟩ := Option.map_eq_some_iff.mp exact
  exact rest

theorem toBitVec_leastRemainder_of_eq (positive : 0 < m.toInt)
    (exact : leastRemainder x.toBitVec m.toBitVec = some found)
    : (FastAlgebra.leastRemainder x m).toBitVec = found := by
  obtain ⟨rest, divided, raised⟩ := Option.map_eq_some_iff.mp exact
  obtain rfl := toBitVec_mod_of_eq divided
  have absolute : m.toBitVec.abs = m.toBitVec := abs_eq_self (w := 63) positive
  have sign : x % m < 0 ↔ (x % m).toBitVec.toInt < 0 := Int64.lt_iff_toInt_lt
  rw [← raised, absolute, FastAlgebra.leastRemainder]
  by_cases negative : x % m < 0
  · rw [if_pos negative, if_pos (sign.mp negative)]
    rfl
  · rw [if_neg negative, if_neg (sign.not.mp negative)]

theorem toBitVec_raise_of_eq (exact : raiseWord? m.toBitVec x.toBitVec = some found)
    : ((x <<< Int64.ofNat splitBits) % m).toBitVec = found := by
  rw [raiseWord?, Option.bind_eq_bind, Option.bind_eq_some_iff] at exact
  obtain ⟨word, shifted, divided⟩ := exact
  obtain rfl := toBitVec_shiftLeft_of_eq shifted
  exact toBitVec_mod_of_eq divided

end CheckedSigned

/-- Where there is a result on words, it is the one that joining without checks comes to. -/
theorem joinHalves_of_joinWords?_eq {m : Int64} (positive : 0 < m.toInt) {first second : Complex K}
    {word : UInt32} (joined : joinWords? m.toBitVec first second = some word)
    : (joinHalves m first second).toUInt64.toUInt32 = word := by
  simp only [joinWords?, Option.bind_eq_bind, Option.bind_eq_some_iff] at joined
  obtain ⟨low, lowFound, inner, innerFound, outer, outerFound, crossed, crossedFound, middle,
    middleFound, high, highFound, raised, raisedFound, sum, sumFound, once, onceFound, twice,
    twiceFound, total, totalFound, rest, restFound, converted, convertedFound, same⟩ := joined
  obtain rfl := Option.some.inj same
  obtain rfl := CheckedSigned.toBitVec_leastRemainder_of_eq positive lowFound
  obtain rfl := CheckedSigned.toBitVec_leastRemainder_of_eq positive innerFound
  obtain rfl := CheckedSigned.toBitVec_leastRemainder_of_eq positive outerFound
  obtain rfl := CheckedSigned.toBitVec_leastRemainder_of_eq positive highFound
  obtain rfl := CheckedSigned.toBitVec_add_of_eq crossedFound
  obtain rfl := CheckedSigned.toBitVec_mod_of_eq middleFound
  obtain rfl := CheckedSigned.toBitVec_raise_of_eq raisedFound
  obtain rfl := CheckedSigned.toBitVec_add_of_eq sumFound
  obtain rfl := CheckedSigned.toBitVec_raise_of_eq onceFound
  obtain rfl := CheckedSigned.toBitVec_shiftLeft_of_eq twiceFound
  obtain rfl := CheckedSigned.toBitVec_add_of_eq totalFound
  obtain rfl := CheckedSigned.toBitVec_mod_of_eq restFound
  apply UInt32.toBitVec_inj.mp
  rw [UInt64.toBitVec_toUInt32, ← CheckedWord.eq_of_convert_eq convertedFound]
  rfl

-----------------------------------------------------------------------------------------
-- Moduli of 32 bits
-----------------------------------------------------------------------------------------

theorem toNat_widen (m : UInt32) : (m.toBitVec.setWidth 64).toNat = m.toNat := by
  have small := m.toNat_lt
  rw [BitVec.toNat_setWidth, UInt32.toNat_toBitVec, Nat.mod_eq_of_lt (by omega)]

theorem toInt_widen (m : UInt32) : (m.toBitVec.setWidth 64).toInt = m.toNat := by
  have small := m.toNat_lt
  rw [BitVec.toInt_eq_toNat_of_lt (by rw [toNat_widen]; omega), toNat_widen]

theorem toBitVec_ofNat_toNat (m : UInt32)
    : (Int64.ofNat m.toNat).toBitVec = m.toBitVec.setWidth 64 := by
  have small := m.toNat_lt
  apply BitVec.eq_of_toNat_eq
  rw [toNat_widen]
  change m.toNat % 2 ^ 64 = m.toNat
  exact Nat.mod_eq_of_lt (by omega)

theorem smallModulus_widen {m : UInt32} (positive : 0 < m.toNat) (small : m.toNat < 2 ^ 31)
    : SmallModulus (m.toBitVec.setWidth 64) where
  positive := by rw [toInt_widen]; exact_mod_cast positive
  small := by rw [toInt_widen]; exact_mod_cast small

/-- The checks change nothing, whatever the products of halves are rounded to. -/
theorem joinWords?_eq {m : UInt32} (positive : 0 < m.toNat) (small : m.toNat < 2 ^ 31)
    (first second : Complex K)
    : joinWords? (m.toBitVec.setWidth 64) first second
      = some (joinHalves (Int64.ofNat m.toNat) first second).toUInt64.toUInt32 := by
  obtain ⟨word, joined, _⟩ := (smallModulus_widen positive small).exists_joinWords?_eq first second
  have signed : 0 < (Int64.ofNat m.toNat).toInt := by
    rw [Int64.toInt_ofNat_of_lt (by omega)]
    exact_mod_cast positive
  rw [joinHalves_of_joinWords?_eq signed (by rwa [toBitVec_ofNat_toNat]), joined]

end FastAlgebra
