import Packrat.CommandLine

/-! The command line program. -/

def main (arguments : List String) : IO UInt32 := do
  let result := Packrat.CommandLine.run arguments
  let out ← IO.getStdout
  out.putStr result.output
  out.flush
  return result.status.toUInt32
