import FastAlgebra.Dyadic
import FastAlgebra.Residue.Words

/-! Inverses of residues by machine words alone. Euclid's algorithm runs on words of 128 bits that
are read with a sign, because the factors of its rows change theirs from row to row. Every step is
checked against the arithmetic of the integers, as it is for words without a sign.
-/

namespace FastAlgebra

namespace CheckedSigned

variable {w : Nat}

/-- The word, if it stands for the number when it is read with a sign. -/
def standingFor (number : Int) (word : BitVec w) : Option (BitVec w) :=
  if word.toInt = number then some word else none

def add (x y : BitVec w) : Option (BitVec w) :=
  standingFor (x.toInt + y.toInt) (x + y)

def sub (x y : BitVec w) : Option (BitVec w) :=
  standingFor (x.toInt - y.toInt) (x - y)

def mul (x y : BitVec w) : Option (BitVec w) :=
  standingFor (x.toInt * y.toInt) (x * y)

/-- The multiple by a power of two. -/
def shiftLeft (x : BitVec w) (bits : Nat) : Option (BitVec w) :=
  standingFor (x.toInt * powerOfTwo bits) (x <<< bits)

/-- The quotient, rounded toward zero. There is none by zero, and none of the least word by minus
one.
-/
def quotient (x y : BitVec w) : Option (BitVec w) :=
  if y = 0 then none else standingFor (x.toInt.tdiv y.toInt) (x.sdiv y)

/-- What the division leaves, wherever there is a quotient. -/
def remainder (x y : BitVec w) : Option (BitVec w) :=
  (quotient x y).map fun _ => x.srem y

/-- The remainder that is not negative: one below zero is raised by the absolute value of the
divisor.
-/
def leastRemainder (x y : BitVec w) : Option (BitVec w) :=
  (remainder x y).map fun rest => if rest.toInt < 0 then rest + y.abs else rest

theorem toInt_of_standingFor_eq {number : Int} {word found : BitVec w}
    (exact : standingFor number word = some found)
    : found.toInt = number := by
  rw [standingFor] at exact
  split at exact
  · rename_i same
    rwa [← Option.some.inj exact]
  · exact nomatch exact

end CheckedSigned

/-- Two neighbouring rows of Euclid's algorithm, as words with a sign. -/
structure EuclidWords where
  remainder : BitVec 128
  next : BitVec 128
  factor : BitVec 128
  nextFactor : BitVec 128

namespace EuclidWords

/-- The first rows on a modulus and an element, both of which have no sign. -/
def start (modulus element : BitVec 64) : Option EuclidWords := do
  let remainder ← CheckedWord.convert 128 modulus
  let next ← CheckedWord.convert 128 element
  pure ⟨remainder, next, 0, 1⟩

/-- Moves one row down. -/
def step (rows : EuclidWords) : Option EuclidWords := do
  let quotient ← CheckedSigned.quotient rows.remainder rows.next
  let multiple ← CheckedSigned.mul quotient rows.nextFactor
  let nextFactor ← CheckedSigned.sub rows.factor multiple
  let whole ← CheckedSigned.mul quotient rows.next
  let next ← CheckedSigned.sub rows.remainder whole
  pure ⟨rows.next, next, rows.nextFactor, nextFactor⟩

/-- A row that is reached has a lesser remainder, whatever the words are. -/
theorem natAbs_next_lt {rows below : EuclidWords} (more : rows.next ≠ 0)
    (reached : rows.step = some below)
    : below.next.toInt.natAbs < rows.next.toInt.natAbs := by
  simp only [step, CheckedSigned.quotient, if_neg more, Option.bind_eq_bind,
    Option.bind_eq_some_iff] at reached
  obtain ⟨quotient, divided, _, _, _, _, whole, multiplied, next, taken, same⟩ := reached
  obtain rfl := Option.some.inj same
  have nonzero : rows.next.toInt ≠ 0 := by
    intro zero
    exact more (BitVec.eq_of_toInt_eq (zero.trans BitVec.toInt_zero.symm))
  have left : next.toInt = rows.remainder.toInt.tmod rows.next.toInt := by
    rw [CheckedSigned.toInt_of_standingFor_eq taken,
      CheckedSigned.toInt_of_standingFor_eq multiplied,
      CheckedSigned.toInt_of_standingFor_eq divided]
    have := Int.tdiv_mul_add_tmod rows.remainder.toInt rows.next.toInt
    omega
  simp only [left, Int.natAbs_tmod]
  exact Nat.mod_lt _ (Int.natAbs_pos.mpr nonzero)

/-- Moves down until no remainder is left. -/
def finish (rows : EuclidWords) : Option EuclidWords :=
  if _ : rows.next = 0 then
    some rows
  else
    match _ : rows.step with
    | some below => below.finish
    | none => none
termination_by rows.next.toInt.natAbs
decreasing_by exact natAbs_next_lt ‹_› ‹_›

/-- The rows that the algorithm comes to on a modulus and an element. -/
inductive Reached (modulus element : BitVec 64) : EuclidWords → Prop
  | start {rows} (first : start modulus element = some rows) : Reached modulus element rows
  | step {rows below} (before : Reached modulus element rows) (more : rows.next ≠ 0)
      (next : rows.step = some below)
    : Reached modulus element below

end EuclidWords

/-- The word of the inverse, if there is one, and none at all if some step leaves its width. -/
def ResidueWord.inverse? (m : Modulus) (x : BitVec 64) : Option (Option (BitVec 64)) :=
  if x = 0 then
    some none
  else do
    let start ← EuclidWords.start m.bits x
    let rows ← start.finish
    if rows.remainder = 1 then
      let modulus ← CheckedWord.convert 128 m.bits
      let least ← CheckedSigned.leastRemainder rows.factor modulus
      let word ← CheckedWord.convert 64 least
      pure (some word)
    else
      pure none

end FastAlgebra
