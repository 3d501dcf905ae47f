import FastAlgebra.Demo.Record
import FastAlgebra.Text.Blank
import FastAlgebra.Text.Bytes
import FastAlgebra.Text.Number
import FastAlgebra.Text.Pattern.Basic

/-! The directives of a log filter and their text form.

A directive names the beginning of a target, or nothing for all parts. In brackets it may demand a
field, as in `part[{field}]=debug`. After an equals sign stands the threshold up to which it shows
what it concerns.
-/

namespace FastAlgebra.Demo

open Text

/-- What a directive demands in brackets: a field of the record, or an enclosing span. Nothing
here is recorded inside a span.
-/
inductive Scope where
  | field (name : String)
  | span
  deriving DecidableEq

/-- Which records of a part are shown: those up to a level, or none. -/
structure Directive where
  target : String
  scope : Option Scope
  most : Option Level

/-- Everything that a directive can show at most, in ascending order. -/
def thresholds : List (Option Level) :=
  [none, some .error, some .warn, some .info, some .debug, some .trace]

def thresholdName (most : Option Level) : String :=
  (most.map Level.name).getD "off"

/-- Reads a threshold: its name in letters of either case, or its place in the order. -/
def threshold? (text : List Char) : Option (Option Level) :=
  match natural? text with
  | some place => thresholds[place]?
  | none => thresholds.find? fun most => (thresholdName most).toList = text.map Char.toLower

/-- Why a text is no directive: it has another form, or a part of it ends inside a character. -/
inductive DirectiveError where
  | malformed
  | splitCharacter
  deriving DecidableEq

/-- A text that is read up to a byte position. The rest, and with it the position, belong to the
text without the blanks at its ends, but the parts are cut from the whole text. So blanks in front
move all parts.
-/
structure Reading where
  whole : List Char
  position : Nat
  rest : List Char

namespace Reading

/-- Reads up to the first of some marks of one byte: the part before it, the mark, and the reading
after it. None if there is no mark.
-/
def part? (reading : Reading) (marks : List Char)
    : Except DirectiveError (Option (List Char × Char × Reading)) :=
  match reading.rest.span (· ∉ marks) with
  | (_, []) => .ok none
  | (before, mark :: rest) =>
      let stop := reading.position + width before
      match cut? reading.whole reading.position stop with
      | some part => .ok (some (part, mark, ⟨reading.whole, stop + 1, rest⟩))
      | none => .error .splitCharacter

/-- Reads up to a mark that must be there. -/
def part (reading : Reading) (marks : List Char)
    : Except DirectiveError (List Char × Char × Reading) := do
  match ← reading.part? marks with
  | some result => return result
  | none => throw .malformed

/-- Reads the rest as a threshold. Where nothing is left, everything is shown. -/
def threshold (reading : Reading) : Except DirectiveError (Option Level) :=
  match dropBytes? reading.position reading.whole with
  | none => .error .splitCharacter
  | some [] => .ok (some .trace)
  | some text =>
      match threshold? text with
      | some most => .ok most
      | none => .error .malformed

end Reading

/-- The scope that a span's name and a field in braces write. The field may have a value, which is
a number or a pattern and can only be that of an enclosing span.
-/
def Scope.ofParts? (spanName demand : List Char) : Option Scope :=
  match demand.span (· ≠ '=') with
  | ([], []) => none
  | (name, []) => some (if spanName.isEmpty then .field (String.ofList name) else .span)
  | (_, _ :: rest) =>
      let value := rest.takeWhile (· ≠ '=')
      if isNumber value || Pattern.isWellFormed value then some .span else none

/-- Reads a scope after its opening bracket: the name of a span, or a field in braces, or both. -/
def Scope.read (reading : Reading) : Except DirectiveError (Scope × Reading) := do
  let (spanName, mark, afterName) ← reading.part [']', '{']
  if mark = ']' then
    return (.span, afterName)
  let (demand, _, afterDemand) ← afterName.part ['}']
  match Scope.ofParts? spanName demand, afterDemand.rest with
  | some scope, ']' :: rest =>
      return (scope, ⟨afterDemand.whole, afterDemand.position + 1, rest⟩)
  | _, _ => throw .malformed

namespace Directive

/-- The characters with which a directive can begin: letters, numbers and a few marks. -/
def canBeginWith (c : Char) : Bool :=
  isAlphanumeric c || c ∈ ['-', ':', '_', '[']

/-- A word alone is a threshold for all parts, or else a target of which everything is shown. -/
def ofWord (word : List Char) : Directive :=
  match threshold? word with
  | some most => ⟨"", none, most⟩
  | none => ⟨String.ofList word, none, some .trace⟩

/-- Reads what stands after a scope: a threshold, or nothing where everything is shown. -/
def readAfterScope (target : String) (scope : Scope) (reading : Reading)
    : Except DirectiveError Directive := do
  match reading.rest with
  | [] => return ⟨target, some scope, some .trace⟩
  | '=' :: rest =>
      let most ← Reading.threshold ⟨reading.whole, reading.position + 1, rest⟩
      return ⟨target, some scope, most⟩
  | _ => throw .malformed

def ofText (text : String) : Except DirectiveError Directive := do
  let whole := text.toList
  let inner := trim whole
  unless inner.head?.any canBeginWith do
    throw .malformed
  match ← Reading.part? ⟨whole, 0, inner⟩ ['=', '['] with
  | none => return ofWord whole
  | some (target, mark, reading) =>
      let target := String.ofList target
      if mark = '=' then
        return ⟨target, none, ← reading.threshold⟩
      let (scope, rest) ← Scope.read reading
      readAfterScope target scope rest

end Directive

end FastAlgebra.Demo
