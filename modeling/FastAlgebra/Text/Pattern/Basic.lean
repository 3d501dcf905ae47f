import FastAlgebra.Text.Alphanumeric
import FastAlgebra.Text.Blank
import FastAlgebra.Text.Pattern.Class

/-! Which texts are regular expressions. A machine reads the text character by character and keeps
the groups that are open.

No text with a closing brace, an equals sign or a comma comes here. So an opening brace, which
begins a counted repetition, is always refused.
-/

namespace FastAlgebra.Text.Pattern

/-- An unfinished group: its flags, the heights of its finished alternatives, and the heights of
the items of the last one, the latest first.
-/
structure Group where
  flags : Flags
  alternatives : List Nat
  items : List Nat

namespace Group

def fresh (flags : Flags) : Group :=
  ⟨flags, [], []⟩

def add (group : Group) (height : Nat) : Group :=
  ⟨group.flags, group.alternatives, height :: group.items⟩

/-- Puts a repetition around the last item. -/
def repeatLast (group : Group) : Group :=
  ⟨group.flags, group.alternatives, group.items.modifyHead (· + 1)⟩

def alternate (group : Group) : Group :=
  ⟨group.flags, joinedHeight group.items :: group.alternatives, []⟩

def content (group : Group) : Nat :=
  joinedHeight (joinedHeight group.items :: group.alternatives)

end Group

/-- Where the machine stands between items: after nothing that can be repeated, after an item, or
after a repetition, which a question mark makes a short one.
-/
inductive Before where
  | nothing
  | item
  | repetition

/-- Where the machine stands. -/
inductive Place where
  /-- Between items. -/
  | items (before : Before)
  /-- After an opening parenthesis. -/
  | opened
  /-- After an opening parenthesis and a question mark. -/
  | extended
  /-- Before the angle bracket of a group's name. -/
  | naming
  /-- In a group's name, the last character first. -/
  | name (reversed : List Char)
  /-- In a list of flags, the last letter first. -/
  | flags (reversed : List Char)
  /-- In a character class. -/
  | inClass (reading : ClassReading)

/-- What has begun and is no token yet: an escape, digits of a code, or a comment after which
something else goes on.
-/
inductive Pending where
  | nothing
  | escape
  | code (byteCoded : Bool) (left value : Nat)
  | comment (after : Pending)

/-- The state of the machine: the groups around the innermost open one, that one, the names that
are taken, the place, and what is pending.
-/
structure State where
  outer : List Group
  group : Group
  names : List (List Char)
  place : Place
  pending : Pending

namespace State

def start : State :=
  ⟨[], .fresh .initial, [], .items .nothing, .nothing⟩

def goTo (state : State) (group : Group) (place : Place) : State :=
  ⟨state.outer, group, state.names, place, .nothing⟩

def addItem (state : State) (height : Nat) : State :=
  state.goTo (state.group.add height) (.items .item)

/-- Adds an item if that is allowed. -/
def addItemIf? (state : State) (allowed : Bool) : Option State :=
  if allowed then some (state.addItem 0) else none

def openGroup (state : State) (flags : Flags) : State :=
  ⟨state.group :: state.outer, .fresh flags, state.names, .items .nothing, .nothing⟩

def closeGroup? (state : State) : Option State :=
  match state.outer with
  | [] => none
  | enclosing :: outer =>
      some ⟨outer, enclosing.add (state.group.content + 1), state.names, .items .item, .nothing⟩

/-- Repeats the last item. -/
def repeatItem? (state : State) (before : Before) (mark : Char) : Option State :=
  match before with
  | .nothing => none
  | .item => some (state.goTo state.group.repeatLast (.items .repetition))
  | .repetition =>
      if mark = '?' then
        some (state.goTo state.group (.items .item))
      else
        some (state.goTo state.group.repeatLast (.items .repetition))

def item? (state : State) (before : Before) (token : Token) : Option State :=
  let flags := state.group.flags
  match token with
  | .plain '(' => some (state.goTo state.group .opened)
  | .plain ')' => state.closeGroup?
  | .plain '|' => some (state.goTo state.group.alternate (.items .nothing))
  | .plain '[' => if flags.needCases then none else some (state.goTo state.group (.inClass .start))
  | .plain '{' => none
  | .plain '*' => state.repeatItem? before '*'
  | .plain '+' => state.repeatItem? before '+'
  | .plain '?' => state.repeatItem? before '?'
  | .plain '.' => state.addItemIf? flags.unicode
  | .plain '^' | .plain '$' | .anchor => some (state.addItem 0)
  | .plain c => state.addItemIf? (flags.allowItem c false)
  | .escaped c byteCoded => state.addItemIf? (flags.allowItem c byteCoded)
  | .category negated => state.addItemIf? (flags.allowCategory negated)
  | .boundary => state.addItemIf? (!flags.unicode)

/-- Reads a token of a list of flags. Each is given once and a minus sign is followed by one. A
closing parenthesis ends the list, and a colon begins a group under its flags.
-/
def flag? (state : State) (reversed : List Char) (token : Token) : Option State :=
  let flags := state.group.flags.update reversed.reverse
  match token with
  | .plain ')' =>
      if reversed.isEmpty || reversed.head? = some '-' then
        none
      else
        some (state.goTo (Group.add ⟨flags, state.group.alternatives, state.group.items⟩ 0)
          (.items .nothing))
  | .plain ':' => if reversed.head? = some '-' then none else some (state.openGroup flags)
  | .plain c =>
      if c ∈ ['-', 'i', 'm', 's', 'U', 'u', 'x', 'R'] && c ∉ reversed then
        some (state.goTo state.group (.flags (c :: reversed)))
      else
        none
  | _ => none

/-- The character can stand in a group's name, of which these characters are read. -/
def canStandInName (reversed : List Char) (c : Char) : Bool :=
  if reversed.isEmpty then
    c = '_' || isAlphabetic c
  else
    c ∈ ['_', '.', '[', ']'] || isAlphanumeric c

/-- Reads a token of a group's name. A name is taken once. -/
def name? (state : State) (reversed : List Char) : Token → Option State
  | .plain '>' =>
      if reversed.isEmpty || reversed ∈ state.names then
        none
      else
        some ((State.mk state.outer state.group (reversed :: state.names) state.place
          state.pending).openGroup state.group.flags)
  | .plain c =>
      if canStandInName reversed c then
        some (state.goTo state.group (.name (c :: reversed)))
      else
        none
  | _ => none

def class? (state : State) (reading : ClassReading) (token : Token) : Option State :=
  match reading.step? state.group.flags token with
  | none => none
  | some (.open next) => some (state.goTo state.group (.inClass next))
  | some (.closed height) => some (state.addItem height)

def token? (state : State) (token : Token) : Option State :=
  match state.place, token with
  | .items before, _ => state.item? before token
  | .opened, .plain '?' => some (state.goTo state.group .extended)
  | .opened, _ => (state.openGroup state.group.flags).item? .nothing token
  | .extended, .plain 'P' => some (state.goTo state.group .naming)
  | .extended, .plain '<' | .naming, .plain '<' => some (state.goTo state.group (.name []))
  | .extended, _ => state.flag? [] token
  | .naming, _ => none
  | .name reversed, _ => state.name? reversed token
  | .flags reversed, _ => state.flag? reversed token
  | .inClass reading, _ => state.class? reading token

/-- Blanks and comments are skipped here. -/
def skipsBlanks (state : State) : Bool :=
  state.group.flags.verbose &&
    match state.place with
    | .items _ | .opened | .inClass _ => true
    | _ => false

/-- The state after a blank or the beginning of a comment. -/
def skip (state : State) (pending : Pending) : State :=
  let place :=
    match state.place with
    | .items .repetition => .items .item
    | .inClass reading => .inClass reading.skip
    | place => place
  ⟨state.outer, state.group, state.names, place, pending⟩

def await (state : State) (pending : Pending) : State :=
  ⟨state.outer, state.group, state.names, state.place, pending⟩

/-- Reads the character after a backslash. -/
def escape? (state : State) (c : Char) : Option State :=
  match hexLength? c with
  | some digits => some (state.await (.code (digits = 2) digits 0))
  | none => (Pattern.escape? c).bind state.token?

/-- Reads a digit of a code. The last one makes a character, if there is one with this code. -/
def digit? (state : State) (byteCoded : Bool) (left value : Nat) (c : Char) : Option State :=
  match hexDigit? c with
  | none => none
  | some digit =>
      let value := 16 * value + digit
      if 1 < left then
        some (state.await (.code byteCoded (left - 1) value))
      else if value.isValidChar then
        state.token? (.escaped (Char.ofNat value) byteCoded)
      else
        none

def read? (state : State) (c : Char) : Option State :=
  match state.pending with
  | .escape => state.escape? c
  | .code byteCoded left value =>
      if state.skipsBlanks && isBlank c then
        some state
      else if state.skipsBlanks && c = '#' then
        some (state.await (.comment state.pending))
      else
        state.digit? byteCoded left value c
  | .comment after => some (if c = '\n' then state.await after else state)
  | .nothing =>
      if state.skipsBlanks && isBlank c then
        some (state.skip .nothing)
      else if state.skipsBlanks && c = '#' then
        some (state.skip (.comment .nothing))
      else if c = '\\' then
        some (state.await .escape)
      else
        state.token? (.plain c)

/-- Nothing is open or pending, and no part is nested too deep. -/
def isComplete (state : State) : Bool :=
  let closed :=
    match state.place, state.pending with
    | .items _, .nothing | .items _, .comment .nothing => state.outer.isEmpty
    | _, _ => false
  closed && state.group.content ≤ 250

end State

def isWellFormed (text : List Char) : Bool :=
  (text.foldlM State.read? .start).any State.isComplete

end FastAlgebra.Text.Pattern
