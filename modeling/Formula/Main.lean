/-
The program as an executable.
-/
import Formula.CommandLine.Run

def main (arguments : List String) : IO UInt32 := do
  let report := Formula.CommandLine.run arguments
  IO.print report.stdout
  IO.eprint report.stderr
  return report.status.toUInt32
