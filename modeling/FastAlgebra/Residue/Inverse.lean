import FastAlgebra.Residue.Basic

/-! Inverses of residues by Euclid's algorithm, and the table of the inverses of `1, …, n`. -/

namespace FastAlgebra

/-- Two neighbouring rows of Euclid's algorithm on the modulus and an element. Each row holds a
remainder and the factor of the element that is congruent to it.
-/
structure EuclidRows where
  remainder : Nat
  next : Nat
  factor : Int
  nextFactor : Int

namespace EuclidRows

def start (modulus element : Nat) : EuclidRows :=
  ⟨modulus, element, 0, 1⟩

/-- Moves one row down. -/
def step (rows : EuclidRows) : EuclidRows where
  remainder := rows.next
  next := rows.remainder % rows.next
  factor := rows.nextFactor
  nextFactor := rows.factor - (rows.remainder / rows.next : Nat) * rows.nextFactor

/-- Moves down until no remainder is left; the last remainder but one is the greatest common
divisor.
-/
def finish (rows : EuclidRows) : EuclidRows :=
  if rows.next = 0 then rows else rows.step.finish
termination_by rows.next
decreasing_by exact Nat.mod_lt _ (by omega)

end EuclidRows

namespace Residue

variable {m : Modulus}

/-- The inverse of an element that shares no factor with the modulus. -/
def inv? (x : Residue m) : Option (Residue m) :=
  if x.word = 0 then
    none
  else
    let rows := (EuclidRows.start m.toNat x.toNat).finish
    if rows.remainder = 1 then
      some (ofNat (rows.factor % (m.toNat : Int)).toNat)
    else
      none

instance : CoeffField (Residue m) where
  inv? := inv?

/-- The quotient of two residues; the caller promises an invertible divisor. -/
def divide (x y : Residue m) : Except Violation (Residue m) :=
  match y.inv? with
  | some inverse => .ok (x * inverse)
  | none => .error .divisorNotInvertible

/-- The next entry of a table of inverses, from the entries before it: with `m = q i + r`, the
inverse of `i` is the negated product of `q` and the inverse of `r`.
-/
def nextInverse (table : Array (Residue m)) (i : Nat) : Residue m :=
  -(ofNat (m.toNat / i) * table.getD (m.toNat % i) 0)

/-- Zero and the inverses of `1, …, n`. From the modulus on, the entries are zero. -/
def inversesUpTo (n : Nat) : List (Residue m) :=
  let first : Array (Residue m) := if n = 0 then #[0] else #[0, 1]
  ((List.range' 2 (n - 1)).foldl (fun table i => table.push (nextInverse table i)) first).toList

/-- The next entry, if the entry that it is computed from is there already. -/
def nextInverse? (table : Array (Residue m)) (i : Nat) : Option (Residue m) :=
  table[m.toNat % i]?.map fun inverse => -(ofNat (m.toNat / i) * inverse)

/-- The table of inverses, if every entry is computed from one that is there already. -/
def inversesUpTo? (n : Nat) : Option (List (Residue m)) :=
  let first : Array (Residue m) := if n = 0 then #[0] else #[0, 1]
  ((List.range' 2 (n - 1)).foldlM (fun table i => table.push <$> nextInverse? table i) first).map
    Array.toList

end Residue

end FastAlgebra
