import FastAlgebra.Complex
import FastAlgebra.Residue.RootOfUnity

/-! The scalars over which a transform of dyadic length can run: residues, exactly, and complex
numbers.
-/

namespace FastAlgebra

/-- What a transform asks of its scalars. -/
class TransformScalar (T : Type) extends Zero T, One T, Add T, Sub T, Mul T where
  /-- The longest transform that the scalars support. -/
  maxLength : Nat
  inverseLength : Nat → T
  /-- Extends a table of roots by one level: behind the `k` entries that are there come the
  powers of a root of order `2k`, so that position `k + j` holds the power `j`.
  -/
  extendRoots : Array T → Nat → Except Violation (Array T)

/-- The next level of a table of roots. The even powers of the root `z` of order `2k` are the
powers of a root of order `k`, which are there already.
-/
def Residue.doubleRoots {m : Modulus} (roots : Array (Residue m)) (k : Nat) (z : Residue m)
    : Array (Residue m) :=
  Array.ofFn fun t : Fin (2 * k) =>
    if t.val < k then roots.getD t 0
    else if t.val % 2 = 0 then roots.getD (t / 2) 0
    else roots.getD (t / 2) 0 * z

/-- Lengths divide the order of the group of units, so Fermat's theorem inverts them. A length
is a word, which bounds the longest one.
-/
instance {m : Modulus} : TransformScalar (Residue m) where
  maxLength := powerOfTwo (min m.twoAdicity 63)
  inverseLength n := (Residue.ofNat n).pow (m.toNat - 2)
  extendRoots roots k :=
    match Residue.rootOfUnity? (2 * k) with
    | some z => .ok (Residue.doubleRoots roots k z)
    | none => .error (.lengthBeyondAdicity (2 * k) m.twoAdicity m.toNat)

/-- Each complex root is computed on its own, so rounding errors do not add up over the levels.
-/
instance {K : Type} [RealScalar K] : TransformScalar (Complex K) where
  maxLength := powerOfTwo 63
  inverseLength n := ⟨1 / RealScalar.ofNat n, 0⟩
  extendRoots roots k :=
    let angle : K := RealScalar.pi / RealScalar.ofNat k
    .ok (roots ++ (Array.range k).map fun j => Complex.polar 1 (angle * RealScalar.ofNat j))

end FastAlgebra
