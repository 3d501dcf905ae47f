import FastAlgebra.Demo.GeneratingFunctions
import FastAlgebra.Demo.NimTable

/-! The demonstrations by name. -/

namespace FastAlgebra.Demo

def named? (name : String) : Option (Show Unit) :=
  match name with
  | "nim_table" => some NimTable.demo
  | "series_demo" => some GeneratingFunctions.demo
  | _ => none

/-- What the demonstration with a given name prints under a filter. Without a filter everything
up to the level of information is shown.
-/
def transcriptOf? (name : String) (filter : Option String) : Option Transcript :=
  (named? name).map fun demo =>
    match (filter.map LogFilter.ofText?).getD (some .standard) with
    | some filter => .ofShow filter demo
    | none => .withoutFilter

end FastAlgebra.Demo
