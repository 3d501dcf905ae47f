import FastAlgebra.Dyadic
import FastAlgebra.Fault

/-! Lists that are asked for by their length. A list is held in memory as a whole, so a length
past anything that memory holds is refused before the list is built.
-/

namespace FastAlgebra

/-- The most entries that a list can have: as many words as half of the address space holds. -/
def longestList : Nat :=
  powerOfTwo 60 - 1

/-- What is made for a length, if a list can be that long. -/
def ofLength {α : Type} (make : Nat → α) (length : Nat) : Except Violation α :=
  if length ≤ longestList then .ok (make length) else .error (.listTooLong length)

/-- A length within the limit makes no difference. -/
theorem ofLength_eq_ok {α : Type} (make : Nat → α) {length : Nat}
    (fits : length ≤ longestList)
    : ofLength make length = .ok (make length) :=
  if_pos fits

end FastAlgebra
