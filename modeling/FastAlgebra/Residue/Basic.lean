import FastAlgebra.CoeffRing

/-! Residues of a modulus below `2^63`, each stored as its least representative in a machine
word. The bound on the modulus leaves the sum of two representatives inside the word, so the
word operations below never wrap around; products are formed in the natural numbers.
-/

namespace FastAlgebra

/-- A positive word below `2^63`. -/
structure Modulus where
  word : UInt64
  pos : 0 < word.toNat
  lt : word.toNat < 0x8000000000000000
  deriving DecidableEq

namespace Modulus

def toNat (m : Modulus) : Nat :=
  m.word.toNat

/-- The modulus with a given value, where there is one. -/
def ofNat? (n : Nat) : Option Modulus :=
  if h : 0 < n ∧ n < 0x8000000000000000 then
    have exact : (UInt64.ofNat n).toNat = n :=
      UInt64.toNat_ofNat_of_lt' (by simp only [UInt64.size]; omega)
    some ⟨UInt64.ofNat n, by omega, by omega⟩
  else
    none

/-- The power of a number, reduced at every step. -/
def powMod (m : Modulus) (base exponent : Nat) : Nat :=
  combineByBits (fun x y => x * y % m.toNat) (fun x => x * x % m.toNat) (1 % m.toNat)
    (base % m.toNat) exponent

end Modulus

/-- A residue, by its least representative. -/
structure Residue (m : Modulus) where
  word : UInt64
  lt : word.toNat < m.toNat
  deriving DecidableEq

namespace Residue

variable {m : Modulus}

def toNat (x : Residue m) : Nat :=
  x.word.toNat

def ofNat (n : Nat) : Residue m where
  word := UInt64.ofNat (n % m.toNat)
  lt := by
    have small : n % m.toNat < m.toNat := Nat.mod_lt n m.pos
    have bound : m.toNat < 0x8000000000000000 := m.lt
    rw [UInt64.toNat_ofNat_of_lt' (by simp only [UInt64.size]; omega)]
    exact small

def ofWord (w : UInt64) : Residue m where
  word := w % m.word
  lt := by
    rw [UInt64.toNat_mod]
    exact Nat.mod_lt _ m.pos

/-- The absolute value of a signed word. The least signed word has one as well. -/
def magnitude (v : Int64) : UInt64 :=
  if v < 0 then 0 - v.toUInt64 else v.toUInt64

instance : Zero (Residue m) where
  zero := ofNat 0

instance : One (Residue m) where
  one := ofNat 1

/-- The sum of the representatives, less the modulus where it reaches it. -/
def add (x y : Residue m) : Residue m where
  word :=
    let sum := x.word + y.word
    if sum ≥ m.word then sum - m.word else sum
  lt := by
    have hx : x.word.toNat < m.word.toNat := x.lt
    have hy : y.word.toNat < m.word.toNat := y.lt
    have hm := m.lt
    have hs : (x.word + y.word).toNat = x.word.toNat + y.word.toNat := by
      rw [UInt64.toNat_add]
      omega
    simp only [Modulus.toNat]
    split
    · rename_i h
      rw [UInt64.toNat_sub_of_le _ _ h]
      have := UInt64.le_iff_toNat_le.mp h
      omega
    · rename_i h
      have := UInt64.not_le.mp h
      exact UInt64.lt_iff_toNat_lt.mp this

/-- The difference of the representatives, plus the modulus where it would be negative. -/
def sub (x y : Residue m) : Residue m where
  word := if x.word ≥ y.word then x.word - y.word else x.word + m.word - y.word
  lt := by
    have hx : x.word.toNat < m.word.toNat := x.lt
    have hy : y.word.toNat < m.word.toNat := y.lt
    have hm := m.lt
    simp only [Modulus.toNat]
    split
    · rename_i h
      rw [UInt64.toNat_sub_of_le _ _ h]
      omega
    · rename_i h
      have hlt := UInt64.lt_iff_toNat_lt.mp (UInt64.not_le.mp h)
      have hs : (x.word + m.word).toNat = x.word.toNat + m.word.toNat := by
        rw [UInt64.toNat_add]
        omega
      rw [UInt64.toNat_sub_of_le _ _ (UInt64.le_iff_toNat_le.mpr (by omega))]
      omega

/-- The modulus less the representative; zero stays. -/
def neg (x : Residue m) : Residue m :=
  if h : x.word = 0 then
    x
  else
    {
      word := m.word - x.word
      lt := by
        have hx : x.word.toNat < m.word.toNat := x.lt
        have hpos : x.word.toNat ≠ 0 := fun hz => h (UInt64.toNat_inj.mp hz)
        simp only [Modulus.toNat]
        rw [UInt64.toNat_sub_of_le _ _ (UInt64.le_iff_toNat_le.mpr (by omega))]
        omega
    }

/-- The residue of the product of the representatives. -/
def mul (x y : Residue m) : Residue m :=
  ofNat (x.toNat * y.toNat)

/-- The power, computed on the representative. -/
def pow (x : Residue m) (n : Nat) : Residue m :=
  ofNat (m.powMod x.toNat n)

instance : Add (Residue m) where
  add := add

instance : Sub (Residue m) where
  sub := sub

instance : Neg (Residue m) where
  neg := neg

instance : Mul (Residue m) where
  mul := mul

/-- The residue of a signed word: that of its absolute value, negated below zero. -/
def ofSigned (v : Int64) : Residue m :=
  let r : Residue m := ofWord (magnitude v)
  if v < 0 then -r else r

instance : Ord (Residue m) where
  compare x y := compare x.word y.word

def sum (a : List (Residue m)) : Residue m :=
  a.foldl (· + ·) 0

def product (a : List (Residue m)) : Residue m :=
  a.foldl (· * ·) 1

/-- The representative in decimal digits. -/
def display (x : Residue m) : String :=
  toString x.toNat

/-- With the modulus one, no residue has the representative one, so none is recognised as one.
-/
instance : CoeffRing (Residue m) where
  isZero x := x.word == 0
  isOne x := x.word == 1
  ofNat := ofNat
  pow := pow
  text x := s!"{x.display} (mod {m.toNat})"

end Residue

end FastAlgebra
