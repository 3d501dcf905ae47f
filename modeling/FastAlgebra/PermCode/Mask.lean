import FastAlgebra.PermCode

/-! Codes of permutations by masks. A set of values below 64 is kept in one word, with a bit for
each value. Every operation that could leave the word is checked: the amount of a shift, a
difference, a product and a sum. A run that leaves the word shows it as a fault of its own.
-/

namespace FastAlgebra

/-- Why a run on masks has no result. -/
inductive MaskFault where
  | refused (error : PermCodeError)
  | leavesWord
  deriving DecidableEq

namespace PermCode

/-- The result of an operation on words, if it is what the operation gives on numbers. -/
def within (result : UInt64) (number : Nat) : Except MaskFault UInt64 :=
  if result.toNat = number then .ok result else .error .leavesWord

/-- The mask of a single value. -/
def maskBit (value : Nat) : Except MaskFault UInt64 :=
  if value < 64 then .ok (1 <<< UInt64.ofNat value) else .error .leavesWord

/-- How many values a mask holds. -/
def popCount (mask : UInt64) : Nat :=
  (List.range 64).countP mask.toNat.testBit

def leadingZeros (mask : UInt64) : Nat :=
  if mask = 0 then 64 else 63 - mask.toNat.log2

/-- The greatest value of a mask. The empty mask has none. -/
def greatest (mask : UInt64) : Except MaskFault Nat :=
  if leadingZeros mask ≤ 63 then .ok (63 - leadingZeros mask) else .error .leavesWord

/-- The mask without its greatest values. -/
def withoutGreatest : (count : Nat) → UInt64 → Except MaskFault UInt64
  | 0, mask => .ok mask
  | count + 1, mask => do
      let bit ← maskBit (← greatest mask)
      withoutGreatest count (mask &&& ~~~bit)

/-- The code of the entries seen so far and of those to come. The mask `seen` holds the entries that
come before `position`. Negating the bit of an entry sets all bits from the entry on.
-/
def encodeMask (length : Nat) (seen code : UInt64) (position : Nat)
    : List Nat → Except MaskFault UInt64
  | [] => .ok code
  | value :: rest =>
      if length ≤ value then
        .error (.refused (.outOfRange value length))
      else do
        let bit ← maskBit value
        if seen &&& bit ≠ 0 then
          .error (.refused (.repeated value))
        else do
          let digit := UInt64.ofNat (popCount (seen &&& (0 - bit)))
          let radix := UInt64.ofNat (position + 1)
          let shifted ← within (code * radix) (code.toNat * radix.toNat)
          let code ← within (shifted + digit) (shifted.toNat + digit.toNat)
          encodeMask length (seen ||| bit) code (position + 1) rest

/-- The code of a permutation, by the mask of its earlier entries. -/
def encodeByMask (perm : List Nat) : Except MaskFault UInt64 :=
  if maxLength < perm.length then
    .error (.refused (.tooLong perm.length))
  else
    encodeMask perm.length 0 0 0 perm

/-- Places the entries from the last position on in front of those that are placed. The entry of a
digit is the greatest value that is left when as many values as the digit says are put aside.
-/
def placeMask (left : UInt64) (placed : List Nat)
    : (digits : List Nat) → Except MaskFault (List Nat)
  | [] => .ok placed
  | digit :: rest => do
      let value ← greatest (← withoutGreatest digit left)
      let bit ← maskBit value
      placeMask (left &&& ~~~bit) (value :: placed) rest

/-- The permutation of a code, by the mask of the values that are left. -/
def decodeByMask (code : UInt64) (length : Nat) : Except MaskFault (List Nat) :=
  if maxLength < length then
    .error (.refused (.tooLong length))
  else
    let (digits, left) := digits code length
    if left ≠ 0 then
      .error (.refused (.codeOutOfRange code length))
    else do
      let bit ← maskBit length
      let all ← within (bit - 1) (bit.toNat - 1)
      placeMask all [] digits

end PermCode

end FastAlgebra
