/-! The units of a regular expression, and the flags that decide which of them are readable.

No tables of character properties and of letter case are at hand. So the classes of digits, blanks
and word characters, word boundaries and letters in either case are readable only for ASCII, that
is, with the Unicode flag off.
-/

namespace FastAlgebra.Text.Pattern

/-- The flags: letters in either case, characters rather than bytes, and blanks that are skipped. -/
structure Flags where
  insensitive : Bool
  unicode : Bool
  verbose : Bool

namespace Flags

def initial : Flags :=
  ⟨false, true, false⟩

/-- Sets one flag by its letter. The other flags do not decide what is readable. -/
def set (value : Bool) (flags : Flags) (letter : Char) : Flags :=
  match letter with
  | 'i' => ⟨value, flags.unicode, flags.verbose⟩
  | 'u' => ⟨flags.insensitive, value, flags.verbose⟩
  | 'x' => ⟨flags.insensitive, flags.unicode, value⟩
  | _ => flags

/-- Sets the flags before a minus sign, and takes back those after it. -/
def update (flags : Flags) (letters : List Char) : Flags :=
  let (taken, dropped) := letters.span (· ≠ '-')
  dropped.foldl (set false) (taken.foldl (set true) flags)

/-- Characters would have to be read in either case beyond ASCII. -/
def needCases (flags : Flags) : Bool :=
  flags.insensitive && flags.unicode

end Flags

/-- A unit of a pattern: a character that stands for itself or is a mark of the grammar, an escaped
character, perhaps by its code of two digits, an escape for a class of characters or for all
others, an end of the text, or a boundary of words.
-/
inductive Token where
  | plain (c : Char)
  | escaped (c : Char) (byteCoded : Bool)
  | category (negated : Bool)
  | anchor
  | boundary
  deriving DecidableEq

/-- The control characters that are escaped by a letter. -/
def controls : List (Char × Nat) :=
  [('a', 7), ('f', 12), ('n', 10), ('r', 13), ('t', 9), ('v', 11)]

/-- What a backslash and one character mean. Properties of characters have no tables, and groups
cannot be referred to.
-/
def escape? (c : Char) : Option Token :=
  if c ∈ ['d', 's', 'w'] then
    some (.category false)
  else if c ∈ ['D', 'S', 'W'] then
    some (.category true)
  else if c ∈ ['A', 'z'] then
    some .anchor
  else if c ∈ ['b', 'B', '<', '>'] then
    some .boundary
  else if c.isAlphanum then
    (controls.lookup c).map fun code => .escaped (Char.ofNat code) false
  else if c.toNat < 128 then
    some (.escaped c false)
  else
    none

def hexDigit? (c : Char) : Option Nat :=
  if c.isDigit then
    some (c.toNat - '0'.toNat)
  else if c.isAlpha && c.toLower.toNat ≤ 'f'.toNat then
    some (c.toLower.toNat - 'a'.toNat + 10)
  else
    none

/-- How many hexadecimal digits follow an escape with this letter. -/
def hexLength? (letter : Char) : Option Nat :=
  [('x', 2), ('u', 4), ('U', 8)].lookup letter

/-- A class of characters is readable: only as one of bytes, and only if it has no bytes beyond
ASCII.
-/
def Flags.allowCategory (flags : Flags) (negated : Bool) : Bool :=
  !flags.unicode && !negated

/-- A character is readable as an item of its own. In terms of bytes a code of two digits must
belong to ASCII.
-/
def Flags.allowItem (flags : Flags) (c : Char) (byteCoded : Bool) : Bool :=
  if flags.unicode then !flags.insensitive else !byteCoded || c.toNat < 128

/-- A character is readable as a member of a class. -/
def Flags.allowMember (flags : Flags) (c : Char) : Bool :=
  flags.unicode || c.toNat < 128

/-- The height of a list of parts in the tree of a pattern. One part stands for itself; more are
joined by a node.
-/
def joinedHeight : List Nat → Nat
  | [] => 0
  | [height] => height
  | heights => heights.foldl Nat.max 0 + 1

end FastAlgebra.Text.Pattern
