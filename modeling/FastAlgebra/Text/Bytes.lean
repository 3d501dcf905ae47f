/-! Parts of a text between two byte positions. A character takes as many bytes as its UTF-8 form
has, and no part begins or ends inside a character.
-/

namespace FastAlgebra.Text

/-- The bytes that a text takes. -/
def width : List Char → Nat
  | [] => 0
  | c :: rest => c.utf8Size + width rest

/-- The text after its first bytes. None if there are fewer, or if the last of them is not the
last one of a character.
-/
def dropBytes? : Nat → List Char → Option (List Char)
  | 0, text => some text
  | _ + 1, [] => none
  | bytes + 1, c :: rest =>
      if c.utf8Size ≤ bytes + 1 then dropBytes? (bytes + 1 - c.utf8Size) rest else none

/-- The first bytes of a text, under the same condition. -/
def takeBytes? : Nat → List Char → Option (List Char)
  | 0, _ => some []
  | _ + 1, [] => none
  | bytes + 1, c :: rest =>
      if c.utf8Size ≤ bytes + 1 then
        (takeBytes? (bytes + 1 - c.utf8Size) rest).map (c :: ·)
      else
        none

/-- The part of a text from one position to another. -/
def cut? (text : List Char) (start stop : Nat) : Option (List Char) :=
  (dropBytes? start text).bind (takeBytes? (stop - start))

end FastAlgebra.Text
