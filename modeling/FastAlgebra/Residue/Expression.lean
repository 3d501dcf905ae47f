import FastAlgebra.Residue.Words

/-! Residues as they are computed, by conversions and operations in any order. -/

namespace FastAlgebra

/-- What a residue is computed from. -/
inductive ResidueExpression where
  | ofWord (value : UInt64)
  | ofSigned (value : Int64)
  | add (x y : ResidueExpression)
  | sub (x y : ResidueExpression)
  | neg (x : ResidueExpression)
  | mul (x y : ResidueExpression)
  | pow (x : ResidueExpression) (exponent : UInt64)
  | sum (terms : List ResidueExpression)
  | product (factors : List ResidueExpression)

namespace ResidueExpression

variable (m : Modulus)

mutual

/-- The residue that is computed. -/
def run : ResidueExpression → Residue m
  | .ofWord value => .ofWord value
  | .ofSigned value => .ofSigned value
  | .add x y => x.run + y.run
  | .sub x y => x.run - y.run
  | .neg x => -x.run
  | .mul x y => x.run * y.run
  | .pow x exponent => x.run.pow exponent.toNat
  | .sum terms => Residue.sum (runAll terms)
  | .product factors => Residue.product (runAll factors)

def runAll : List ResidueExpression → List (Residue m)
  | [] => []
  | e :: rest => e.run :: runAll rest

end

mutual

/-- The word that is computed, if no step leaves its width. -/
def runWords : ResidueExpression → Option (BitVec 64)
  | .ofWord value => ResidueWord.ofWord m value
  | .ofSigned value => ResidueWord.ofSigned m value
  | .add x y => do ResidueWord.add m (← x.runWords) (← y.runWords)
  | .sub x y => do ResidueWord.sub m (← x.runWords) (← y.runWords)
  | .neg x => do ResidueWord.neg m (← x.runWords)
  | .mul x y => do ResidueWord.mul m (← x.runWords) (← y.runWords)
  | .pow x exponent => do ResidueWord.pow m (← x.runWords) exponent
  | .sum terms => do ResidueWord.sum m (← runAllWords terms)
  | .product factors => do ResidueWord.product m (← runAllWords factors)

def runAllWords : List ResidueExpression → Option (List (BitVec 64))
  | [] => some []
  | e :: rest => do
      let word ← e.runWords
      let words ← runAllWords rest
      pure (word :: words)

end

end ResidueExpression

end FastAlgebra
