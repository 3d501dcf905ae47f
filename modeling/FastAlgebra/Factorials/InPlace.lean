import FastAlgebra.Factorials

/-! Tables of factorials filled where they stand. One number runs up along the factorials and down
again along their inverses, a one being added or taken away at each step. A step has no result if an
entry that it reads is missing.
-/

namespace FastAlgebra.Factorials

/-- A table that is being filled, and the image of the number that the steps have come to. -/
structure Filling (F : Type) where
  entries : Array F
  number : F

variable {F : Type} [CoeffField F]

/-- Appends the factorial of `i`, which is the one before it times the next number. -/
def ascend? (filling : Filling F) (i : Nat) : Option (Filling F) :=
  let number := filling.number + 1
  filling.entries[i - 1]?.map fun before => ⟨filling.entries.push (before * number), number⟩

/-- Writes the inverse of the factorial of `i - 1`, which is the one of `i` times that number. -/
def descend? (filling : Filling F) (i : Nat) : Option (Filling F) :=
  filling.entries[i]?.map fun above =>
    ⟨filling.entries.setIfInBounds (i - 1) (above * filling.number), filling.number - 1⟩

/-- The tables, if no entry is missing on the way up and down. Only the last factorial is inverted.
-/
def buildInPlace? (n : Nat) : Option (Except VanishingFactorial (Factorials F)) := do
  let risen ← (List.range' 1 n).foldlM ascend? ⟨#[1], 0⟩
  let last ← risen.entries[n]?
  match CoeffField.inv? last with
  | none => some (.error ⟨n⟩)
  | some inverse =>
      let blank := (Array.replicate (n + 1) 0).setIfInBounds n inverse
      let fallen ← (List.range' 1 n).reverse.foldlM descend? ⟨blank, risen.number⟩
      some (.ok ⟨risen.entries, fallen.entries⟩)

end FastAlgebra.Factorials
