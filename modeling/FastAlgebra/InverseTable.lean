import FastAlgebra.CoeffRing

/-! The table of the inverses of `1, …, n` in any field, with a single inversion: the products
of all numbers up to each one are formed on the way up and taken apart on the way down.
-/

namespace FastAlgebra

/-- Continues a table behind `i`, of which `value` is the image and `product` the product of the
images up to it: the inverse of that product, and the inverses of the next `count` numbers.
-/
def invertFollowing {F : Type} [CoeffField F] (i : Nat) (value product : F)
    : (count : Nat) → Except PolyError (F × List F)
  | 0 =>
      match CoeffField.inv? product with
      | some inverse => .ok (inverse, [])
      | none => .error (.zeroDivisor i)
  | count + 1 =>
      let next := value + 1
      if CoeffRing.isZero next then
        .error (.zeroDivisor (i + 1))
      else
        (fun (inverse, rest) => (inverse * next, inverse * product :: rest))
          <$> invertFollowing (i + 1) next (product * next) count

/-- Zero and the inverses of `1, …, n`, or the first of these numbers that is zero in the field.
-/
def inverseTable {F : Type} [CoeffField F] (n : Nat) : Except PolyError (List F) :=
  (fun (_, inverses) => 0 :: inverses) <$> invertFollowing 0 0 1 n

end FastAlgebra
