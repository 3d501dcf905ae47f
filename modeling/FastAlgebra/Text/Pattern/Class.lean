import FastAlgebra.Text.Pattern.Token

/-! Character classes in brackets. They are read token by token; a class can be a member of another
one, and doubled marks are operators between lists of members.
-/

namespace FastAlgebra.Text.Pattern

/-- An unfinished class: the height of the operands before its last operator, the heights of the
members after it, and the text after the opening bracket, the last character first.
-/
structure Class where
  left : Option Nat
  members : List Nat
  text : List Char

namespace Class

def fresh : Class :=
  ⟨none, [], []⟩

def add (inner : Class) (height : Nat) : Class :=
  ⟨inner.left, height :: inner.members, inner.text⟩

/-- Keeps one more character of the text. -/
def note (inner : Class) (c : Char) : Class :=
  ⟨inner.left, inner.members, c :: inner.text⟩

def content (inner : Class) : Nat :=
  let last := joinedHeight inner.members
  match inner.left with
  | none => last
  | some left => Nat.max left last + 1

def operate (inner : Class) : Class :=
  ⟨some inner.content, [], inner.text⟩

/-- The names of the classes of ASCII characters. -/
def asciiNames : List String :=
  ["alnum", "alpha", "ascii", "blank", "cntrl", "digit", "graph", "lower", "print", "punct",
   "space", "upper", "word", "xdigit"]

/-- The text names a class of ASCII characters between two colons. -/
def isAscii (inner : Class) : Bool :=
  asciiNames.any fun name => inner.text = (':' :: name.toList ++ [':']).reverse

/-- The text names all other characters than those of such a class. -/
def isNegatedAscii (inner : Class) : Bool :=
  asciiNames.any fun name => inner.text = (':' :: '^' :: name.toList ++ [':']).reverse

end Class

/-- Where the reader stands in the innermost class. -/
inductive ClassPlace where
  /-- After the opening bracket, where a circumflex negates. -/
  | opened
  /-- Before the first member, or after hyphens that came first. -/
  | leading (empty : Bool)
  /-- Before a member. -/
  | between
  /-- After a mark that is an operator if it is doubled. -/
  | doubling (mark : Char)
  /-- After a member, which can begin a range if it is a character. -/
  | member (first : Option Char)
  /-- After a member and a hyphen, perhaps with blanks behind it. -/
  | hyphen (first : Option Char) (spaced : Bool)

/-- Nested classes, and the place in the innermost one. -/
structure ClassReading where
  outer : List Class
  inner : Class
  place : ClassPlace

/-- The classes after a token: some are open, or the outermost one is closed and has a height. -/
inductive ClassStep where
  | open (reading : ClassReading)
  | closed (height : Nat)

namespace ClassReading

def start : ClassReading :=
  ⟨[], .fresh, .opened⟩

def goTo (reading : ClassReading) (inner : Class) (place : ClassPlace) : ClassStep :=
  .open ⟨reading.outer, inner, place⟩

def addChar? (flags : Flags) (reading : ClassReading) (c : Char) (place : ClassPlace)
    : Option ClassStep :=
  if flags.allowMember c then some (reading.goTo (reading.inner.add 0) place) else none

/-- Closes the innermost class. In terms of bytes no class reaches beyond ASCII. -/
def close? (flags : Flags) (reading : ClassReading) : Option ClassStep :=
  match reading.outer with
  | [] => some (.closed (reading.inner.content + 1))
  | enclosing :: outer =>
      if reading.inner.isNegatedAscii then
        if flags.unicode then some (.open ⟨outer, enclosing.add 0, .between⟩) else none
      else if reading.inner.isAscii then
        some (.open ⟨outer, enclosing.add 0, .between⟩)
      else
        some (.open ⟨outer, enclosing.add (reading.inner.content + 1), .between⟩)

/-- Reads a token where a member can stand. -/
def member? (flags : Flags) (reading : ClassReading) : Token → Option ClassStep
  | .plain ']' => reading.close? flags
  | .plain '[' => some (.open ⟨reading.inner :: reading.outer, .fresh, .opened⟩)
  | .plain c =>
      if c ∈ ['&', '-', '~'] then
        some (reading.goTo reading.inner (.doubling c))
      else
        reading.addChar? flags c (.member (some c))
  | .escaped c _ => reading.addChar? flags c (.member (some c))
  | .category negated =>
      if flags.allowCategory negated then
        some (reading.goTo (reading.inner.add 0) (.member none))
      else
        none
  | .anchor | .boundary => none

/-- Reads a token after a member. -/
def afterMember? (flags : Flags) (reading : ClassReading) (first : Option Char) (token : Token)
    : Option ClassStep :=
  if token = .plain '-' then
    some (reading.goTo reading.inner (.hyphen first false))
  else
    reading.member? flags token

/-- Ends a range, whose ends must be in order. -/
def endRange? (flags : Flags) (reading : ClassReading) (first : Option Char) (last : Char)
    : Option ClassStep :=
  if first.any (· ≤ last) && flags.allowMember last then
    some (reading.goTo reading.inner .between)
  else
    none

/-- Reads a token after a member and a hyphen. The hyphen is a member itself before a closing
bracket, an operator together with another hyphen, and else makes a range.
-/
def afterHyphen? (flags : Flags) (reading : ClassReading) (first : Option Char) (spaced : Bool)
    : Token → Option ClassStep
  | .plain ']' => close? flags ⟨reading.outer, reading.inner.add 0, .between⟩
  | .plain '-' =>
      if spaced then
        some (reading.goTo (reading.inner.add 0) (.hyphen (some '-') false))
      else
        some (reading.goTo reading.inner.operate .between)
  | .plain c | .escaped c _ => reading.endRange? flags first c
  | .category _ | .anchor | .boundary => none

def place? (flags : Flags) (reading : ClassReading) (token : Token) : Option ClassStep :=
  match reading.place, token with
  | .opened, .plain '^' =>
      if flags.unicode then some (reading.goTo reading.inner (.leading true)) else none
  | .opened, .plain '-' | .leading _, .plain '-' =>
      some (reading.goTo (reading.inner.add 0) (.leading false))
  | .opened, .plain ']' | .leading true, .plain ']' =>
      some (reading.goTo (reading.inner.add 0) .between)
  | .opened, _ | .leading _, _ | .between, _ => reading.member? flags token
  | .doubling mark, _ =>
      if token = .plain mark then
        some (reading.goTo reading.inner.operate .between)
      else
        afterMember? flags ⟨reading.outer, reading.inner.add 0, .between⟩ (some mark) token
  | .member first, _ => reading.afterMember? flags first token
  | .hyphen first spaced, _ => reading.afterHyphen? flags first spaced token

/-- Reads a token. The text of the innermost class keeps it; an escape is kept as a backslash. -/
def step? (flags : Flags) (reading : ClassReading) (token : Token) : Option ClassStep :=
  match token with
  | .plain ']' => reading.place? flags token
  | .plain c => place? flags ⟨reading.outer, reading.inner.note c, reading.place⟩ token
  | _ => place? flags ⟨reading.outer, reading.inner.note '\\', reading.place⟩ token

/-- Skips blanks. A mark before them is not doubled any more. -/
def skip (reading : ClassReading) : ClassReading :=
  let inner := reading.inner.note ' '
  match reading.place with
  | .doubling mark => ⟨reading.outer, inner.add 0, .member (some mark)⟩
  | .hyphen first _ => ⟨reading.outer, inner, .hyphen first true⟩
  | place => ⟨reading.outer, inner, place⟩

end ClassReading

end FastAlgebra.Text.Pattern
