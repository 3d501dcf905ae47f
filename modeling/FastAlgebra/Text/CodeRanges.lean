/-! Sets of characters as ranges of code points. -/

namespace FastAlgebra.Text

/-- Ranges of code points, each with its first and its last one. -/
abbrev CodeRanges : Type :=
  List (Nat × Nat)

/-- The character lies in one of the ranges. -/
def CodeRanges.covers (ranges : CodeRanges) (c : Char) : Bool :=
  ranges.any fun (first, last) => first ≤ c.toNat && c.toNat ≤ last

end FastAlgebra.Text
