import FastAlgebra.Event

/-! Log records: a severity, the name of the part that wrote the record, a message and named
values.
-/

namespace FastAlgebra.Demo

/-- A log record before filtering. -/
structure Record where
  level : Level
  target : String
  message : String
  fields : List (String × String)

/-- The name under which the part that logs an event is known. -/
def targetOf : Event → String
  | .tablesGrown _ _ => "vellum_poly::algorithms::ntt"
  | .newtonStep _ | .transformInverseStep _ => "vellum_poly::algorithms::newton"
  | .seriesDivision _ _ => "vellum_poly::division"
  | .treeStarted _ => "vellum_poly::multipoint"
  | .expStep _ | .seriesPower _ _ => "vellum_series::ops"

namespace Record

def ofEvent (event : Event) : Record where
  level := event.level
  target := targetOf event
  message := event.message
  fields := event.fields.map fun (name, value) => (name, toString value)

/-- The names of a record's fields. The message is one of them. -/
def fieldNames (record : Record) : List String :=
  "message" :: record.fields.map Prod.fst

/-- The printed form of a record: severity, target, message, and each value after its name. -/
def text (record : Record) : String :=
  let fields := record.fields.map fun (name, value) => s!"{name}={value}"
  let body := " ".intercalate (record.message :: fields)
  s!"{record.level.name.toUpper} {record.target}: {body}"

end Record

end FastAlgebra.Demo
