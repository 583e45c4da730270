import ProofWalk.CommandLine.Basic

/-!
# The program

Runs the command line over the files and the clock of the machine.
-/

namespace ProofWalk

instance : Files IO where
  read? path := do
    try
      return some (← IO.FS.readFile path)
    catch _ => return none
  write path content := do
    try
      IO.FS.writeFile path content
      return true
    catch _ => return false

instance : Clock IO where
  milliseconds := IO.monoMsNow

end ProofWalk

/-- Prints what a run tells, and ends with its exit code. -/
def main (arguments : List String) : IO UInt32 := do
  let ending ← ProofWalk.CommandLine.run (m := IO) arguments
  for line in ending.complaint do
    IO.eprintln line
  for line in ending.output do
    IO.println line
  return ending.code.toUInt32
