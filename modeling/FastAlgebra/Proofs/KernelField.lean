import Mathlib
import FastAlgebra.Proofs.Nimber.Field
import FastAlgebra.Proofs.Residue.Kernels

/-! Fields with exact kernels. What is proved of polynomials and series rests on these two laws of
the kernels only, and every field of the library satisfies them.
-/

namespace FastAlgebra

/-- The field is lawful, its product of lists is exact, and its inverse of a series is one wherever
the constant term has an inverse.
-/
class ExactKernels (F : Type) [KernelField F] : Prop extends LawfulField F where
  convolve_yields : ExactProduct (KernelField.convolve (F := F))
  exists_seriesInverse_yields
    : ∀ (a : List F) (start : F),
        constantInverse? a = some start
        → ∀ n, ∃ b, (KernelField.seriesInverse a n).Yields b ∧ InverseSeries a b n

/-- The kernels of a field that names none of its own. -/
abbrev defaultKernels (F : Type) [CoeffField F] : KernelField F where

/-- The fields whose kernels the library provides: residues modulo a prime, and every lawful field
that names no kernels of its own.
-/
class inductive LibraryField : (F : Type) → [KernelField F] → Prop
  | residue (m : Modulus) (prime : m.toNat.Prime) : LibraryField (Residue m)
  | defaults (F : Type) [CoeffField F] (lawful : LawfulField F)
    : @LibraryField F (defaultKernels F)

namespace LibraryField

instance (m : Modulus) [prime : Fact m.toNat.Prime] : LibraryField (Residue m) :=
  .residue m prime.out

/-- Nimbers use the default kernels. -/
instance : LibraryField Nimber :=
  .defaults Nimber inferInstance

/-- Every field of the library has exact kernels, by cases on where its kernels come from. -/
instance {F : Type} [KernelField F] [library : LibraryField F]
    : ExactKernels F := by
  cases library with
  | residue m prime =>
      have : Fact m.toNat.Prime := ⟨prime⟩
      exact ⟨Residue.convolve_yields, fun _ _ => Residue.exists_seriesInverse_yields⟩
  | defaults F lawful =>
      -- The class of the field is the default one by the constructor, not by inference.
      let := defaultKernels F
      exact ⟨exactProduct_karatsuba, fun _ _ invertible =>
        exists_newtonInverse_yields exactProduct_karatsuba LawfulField.mul_inv? invertible⟩

end LibraryField

end FastAlgebra
