import InteriorPoint.Demo

/-!
# Main — the demonstration as a command
-/

/-- Prints the table and gives the exit code. -/
def main (args : List String) : IO UInt32 := do
  let (lines, code) := InteriorPoint.Demo.run args
  for line in lines do
    IO.println line
  return code.toUInt32
