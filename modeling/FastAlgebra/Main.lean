import FastAlgebra.Demo

/-! The command line: the name of a demonstration, and optionally a log filter. -/

/-- Prints a demonstration; the exit code tells whether it came to its end. -/
def main (args : List String) : IO UInt32 := do
  match args with
  | name :: rest =>
      match FastAlgebra.Demo.transcriptOf? name rest.head? with
      | some transcript =>
          transcript.lines.forM IO.println
          return transcript.exitCode.toUInt32
      | none =>
          IO.eprintln s!"no demonstration is called {name}"
          return 2
  | [] =>
      IO.eprintln "name a demonstration: nim_table or series_demo"
      return 2
