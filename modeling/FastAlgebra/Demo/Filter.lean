import FastAlgebra.Demo.Directive

/-! The filter that decides which log records are shown. Of the directives that concern a record
the most specific one decides.
-/

namespace FastAlgebra.Demo

namespace Directive

/-- The directive concerns this record: its target begins the record's, and the record has the
field that it demands.
-/
def concerns (directive : Directive) (record : Record) : Bool :=
  record.target.startsWith directive.target &&
    match directive.scope with
    | none => true
    | some (.field name) => name ∈ record.fieldNames
    | some .span => false

def field? (directive : Directive) : Option String :=
  match directive.scope with
  | some (.field name) => some name
  | _ => none

/-- Where two directives concern one record, the earlier yields to the later one. The longer
target is the more specific, then the demand of a field, then the field whose name comes last. Of
directives that are equal in all this the later one decides.
-/
def yields (earlier later : Directive) : Bool :=
  if earlier.target.length = later.target.length then
    match earlier.field?, later.field? with
    | none, _ => true
    | some _, none => false
    | some name, some other => name ≤ other
  else
    earlier.target.length < later.target.length

end Directive

/-- A list of directives. One for the empty target concerns all parts. -/
abbrev LogFilter : Type :=
  List Directive

namespace LogFilter

def standard : LogFilter :=
  [⟨"", none, some .info⟩]

/-- Reads directives that are separated by commas. Where there are none, errors are shown; where
one is malformed, the standard filter takes the place of all. There is no filter if a directive
before that has a part that ends inside a character.
-/
def ofText? (text : String) : Option LogFilter :=
  match ((text.splitOn ",").filter (!·.isEmpty)).mapM Directive.ofText with
  | .ok [] => some [⟨"", none, some .error⟩]
  | .ok directives => some directives
  | .error .malformed => some standard
  | .error .splitCharacter => none

/-- The directive that decides about a record: of those that concern it, the one to which the
others yield.
-/
def decisive? (filter : LogFilter) (record : Record) : Option Directive :=
  (filter.filter (·.concerns record)).foldl
    (fun best directive =>
      match best with
      | none => some directive
      | some other => if other.yields directive then some directive else best)
    none

def shows (filter : LogFilter) (record : Record) : Bool :=
  match (filter.decisive? record).bind Directive.most with
  | some most => record.level.rank ≤ most.rank
  | none => false

end LogFilter

end FastAlgebra.Demo
