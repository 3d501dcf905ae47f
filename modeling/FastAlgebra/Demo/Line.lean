import FastAlgebra.Demo.Filter

/-! What a demonstration prints: plain lines, and those log records that a filter shows. -/

namespace FastAlgebra.Demo

/-- A line of output before filtering. -/
inductive Line where
  | plain (text : String)
  | record (entry : Record)

/-- The demonstrations, which log lines. -/
abbrev Show : Type → Type :=
  Logged Line

def note (level : Level) (target message : String) (fields : List (String × String))
    : Show Unit :=
  Logged.emit (.record ⟨level, target, message, fields⟩)

/-- Runs a kernel and shows its events. -/
def run {α : Type} (kernel : Kernel α) : Show α :=
  kernel.mapEvents fun event => .record (Record.ofEvent event)

/-- The text of a line, if it is shown. -/
def Line.text? (filter : LogFilter) : Line → Option String
  | .plain text => some text
  | .record entry => if filter.shows entry then some entry.text else none

def listText (values : List String) : String :=
  "[" ++ ", ".intercalate values ++ "]"

/-- What a demonstration printed, and the code with which it ended. -/
structure Transcript where
  lines : List String
  exitCode : Nat

namespace Transcript

/-- The exit code: zero at the end of the run, one after a refusal, 101 after a broken promise. -/
def exitCodeOf : Except Fault Unit → Nat
  | .ok _ => 0
  | .error (.refused _) => 1
  | .error (.violated _) => 101

/-- Filters the lines of a demonstration. -/
def ofShow (filter : LogFilter) (demo : Show Unit) : Transcript where
  lines := demo.events.filterMap (Line.text? filter)
  exitCode := exitCodeOf demo.outcome

/-- Nothing is shown without a filter, which every demonstration needs first. -/
def withoutFilter : Transcript where
  lines := []
  exitCode := 101

end Transcript

end FastAlgebra.Demo
