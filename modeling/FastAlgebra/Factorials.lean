import FastAlgebra.CoeffRing

/-! The factorials up to some number in a field, with their inverses and what is made of them.
A question that goes past the table has no answer.
-/

namespace FastAlgebra

/-- A factorial that is zero in the field, so that it has no inverse. -/
structure VanishingFactorial where
  n : Nat
  deriving DecidableEq

def VanishingFactorial.message (error : VanishingFactorial) : String :=
  s!"{error.n}! is zero in the coefficient field"

/-- The images of `0!, …, n!` and their inverses. -/
structure Factorials (F : Type) where
  factorials : Array F
  inverses : Array F

namespace Factorials

variable {F : Type} [CoeffField F]

/-- The factorial `product` of the number with the image `value`, and the next `count` ones, each
with its inverse; beside them the inverse of `product`. Only the last one is inverted.
-/
def rowsFrom (value product : F) : (count : Nat) → Option (F × List (F × F))
  | 0 =>
      (CoeffField.inv? product).map fun inverse => (inverse, [(product, inverse)])
  | count + 1 =>
      let next := value + 1
      (rowsFrom next (product * next) count).map fun (nextInverse, rows) =>
        let inverse := nextInverse * next
        (inverse, (product, inverse) :: rows)

def build (n : Nat) : Except VanishingFactorial (Factorials F) :=
  match rowsFrom (0 : F) 1 n with
  | some (_, rows) => .ok ⟨(rows.map Prod.fst).toArray, (rows.map Prod.snd).toArray⟩
  | none => .error ⟨n⟩

def max (tables : Factorials F) : Nat :=
  tables.factorials.size - 1

def factorial? (tables : Factorials F) (n : Nat) : Option F :=
  tables.factorials[n]?

def inverse? (tables : Factorials F) (n : Nat) : Option F :=
  tables.inverses[n]?

/-- The image of the binomial coefficient of `n` over `k`, which is zero for `k` above `n`. -/
def binomial? (tables : Factorials F) (n k : Nat) : Option F :=
  if n < k then
    some 0
  else do
    let whole ← tables.factorial? n
    let part ← tables.inverse? k
    let rest ← tables.inverse? (n - k)
    some (whole * part * rest)

/-- The image of the factorial of the sum over the factorials of the parts. -/
def multinomial? (tables : Factorials F) (parts : List Nat) : Option F := do
  let whole ← tables.factorial? (parts.foldl (· + ·) 0)
  parts.foldlM (fun value k => (value * ·) <$> tables.inverse? k) whole

end Factorials

end FastAlgebra
