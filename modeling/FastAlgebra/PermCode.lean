/-! Codes of permutations. The code of a permutation of `0, …, n - 1` is a number below `n!`. In
mixed radix its digit at position `i`, counted from one and of radix `i`, is the number of
earlier entries that are greater than the entry there. The order of the codes is not the
lexicographic one.
-/

namespace FastAlgebra

def factorial : Nat → Nat
  | 0 => 1
  | n + 1 => factorial n * (n + 1)

/-- Why a list is not a permutation that has a code, or a number not a code. -/
inductive PermCodeError where
  | outOfRange (value length : Nat)
  | repeated (value : Nat)
  | tooLong (length : Nat)
  | codeOutOfRange (code : UInt64) (length : Nat)
  deriving DecidableEq

namespace PermCode

/-- The longest permutations whose codes fit into a word: `20! < 2^64 ≤ 21!`. -/
def maxLength : Nat :=
  20

def factorialWord? (n : Nat) : Option UInt64 :=
  if n ≤ maxLength then some (UInt64.ofNat (factorial n)) else none

/-- The code of the entries seen so far, latest first, and of those to come. -/
def encodeFrom (length : Nat) (seen : List Nat) (code : UInt64)
    : List Nat → Except PermCodeError UInt64
  | [] => .ok code
  | value :: rest =>
      if length ≤ value then
        .error (.outOfRange value length)
      else if value ∈ seen then
        .error (.repeated value)
      else
        let radix := UInt64.ofNat (seen.length + 1)
        let digit := UInt64.ofNat (seen.countP (value < ·))
        encodeFrom length (value :: seen) (code * radix + digit) rest

/-- The code of a permutation of the numbers below its length. -/
def encode (perm : List Nat) : Except PermCodeError UInt64 :=
  if maxLength < perm.length then
    .error (.tooLong perm.length)
  else
    encodeFrom perm.length [] 0 perm

/-- The digits of a code, last position first, and what is left of the code. -/
def digits (code : UInt64) : (length : Nat) → List Nat × UInt64
  | 0 => ([], code)
  | length + 1 =>
      let radix := UInt64.ofNat (length + 1)
      let (earlier, left) := digits (code / radix) length
      ((code % radix).toNat :: earlier, left)

/-- Places the entries from the last position on in front of those that are placed. The values
that are left stand in descending order, so a digit is the index of its entry.
-/
def place (left placed : List Nat) : (digits : List Nat) → List Nat
  | [] => placed
  | digit :: rest => place (left.eraseIdx digit) (left.getD digit 0 :: placed) rest

/-- The permutation of a given length with a given code. -/
def decode (code : UInt64) (length : Nat) : Except PermCodeError (List Nat) :=
  if maxLength < length then
    .error (.tooLong length)
  else
    let (digits, left) := digits code length
    if left ≠ 0 then
      .error (.codeOutOfRange code length)
    else
      .ok (place (List.range length).reverse [] digits)

end PermCode

def PermCodeError.message : PermCodeError → String
  | .outOfRange value length =>
      s!"value {value} out of range for a permutation of length {length}"
  | .repeated value => s!"value {value} occurs more than once"
  | .tooLong length =>
      let maximum := PermCode.maxLength
      s!"permutations of length {length} do not fit in 64 bits (maximum {maximum})"
  | .codeOutOfRange code length => s!"code {code} is not below {length}!"

end FastAlgebra
