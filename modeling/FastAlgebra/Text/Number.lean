/-! Numbers in decimal notation. -/

namespace FastAlgebra.Text

/-- A text of digits only, at least one. -/
def isDigits (text : List Char) : Bool :=
  !text.isEmpty && text.all Char.isDigit

/-- The natural number that digits write, with or without a plus sign in front. -/
def natural? (text : List Char) : Option Nat :=
  let digits := if text.head? = some '+' then text.drop 1 else text
  if isDigits digits then
    some (digits.foldl (fun value digit => 10 * value + (digit.toNat - '0'.toNat)) 0)
  else
    none

/-- A text without its sign, if it has one. -/
def unsigned (text : List Char) : List Char :=
  if text.head?.any (· ∈ ['+', '-']) then text.drop 1 else text

/-- Digits with at most one point among them or at an end. -/
def isDecimal (text : List Char) : Bool :=
  match text.span (· ≠ '.') with
  | (whole, []) => isDigits whole
  | (whole, _ :: fraction) => (whole ++ fraction).all Char.isDigit && text.length ≠ 1

/-- A decimal, perhaps with an exponent and a sign, or a name of infinity or of no number. Letters
are read in either case.
-/
def isNumber (text : List Char) : Bool :=
  let value := (unsigned text).map Char.toLower
  match value.span (· ≠ 'e') with
  | (decimal, []) => isDecimal decimal || String.ofList value ∈ ["inf", "infinity", "nan"]
  | (decimal, _ :: exponent) => isDecimal decimal && isDigits (unsigned exponent)

end FastAlgebra.Text
