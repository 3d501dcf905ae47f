import FastAlgebra.Demo.Line
import FastAlgebra.Nimber

/-! The multiplication table of the nimbers below 16, and some products of large ones. -/

namespace FastAlgebra.Demo.NimTable

def note (level : Level) (message : String) (fields : List (String × String)) : Show Unit :=
  Demo.note level "nim_table" message fields

/-- A number, right-aligned in two columns. -/
def cell (value : UInt64) : String :=
  let digits := toString value
  if digits.length < 2 then s!" {digits}" else digits

def row (x : Nat) : String :=
  " ".intercalate ((List.range 16).map fun y =>
    cell (Nimber.mul ⟨UInt64.ofNat x⟩ ⟨UInt64.ofNat y⟩).word)

def noteProduct (x y : UInt64) : Show Unit :=
  let product := (Nimber.mul ⟨x⟩ ⟨y⟩).word
  note .info "nim-product"
    [("x", toString x), ("y", toString y), ("product", toString product)]

def demo : Show Unit := do
  note .info "nim-products of 0..16 (a subfield of order 16)" []
  for x in List.range 16 do
    Logged.emit (.plain (row x))
  noteProduct 2 2
  noteProduct 8 8
  noteProduct 0x100000000 0x100000000
  noteProduct (0 - 1) (0 - 1)
  let a : Nimber := ⟨0x0123456789abcdef⟩
  match a.inv? with
  | none => Logged.refuse .notInvertible
  | some inverse =>
      note .debug "inverse" [("a", a.display), ("inv", inverse.display)]
      note .info s!"{a.display} * {inverse.display} = *1" []

end FastAlgebra.Demo.NimTable
