import ElmSuite.CommandLine.Scenario

/-!
# The program

The command on the words of the command line, in the scenario that the standard
input describes. It prints what the command prints and ends with its status; a
fault that has no report of its own ends it with status 1.
-/

open ElmSuite

/-- Prints what a command came to. -/
def printOutcome (o : CommandOutcome) : IO UInt32 := do
  IO.print o.stdout
  IO.eprint o.stderr
  match o.status with
  | .ok status => return UInt32.ofNat status
  | .error fault =>
    IO.eprintln (fault.message?.getD "")
    return 1

/-- Reads the scenario and runs the command in it. -/
def main (words : List String) : IO UInt32 := do
  let text ← (← IO.getStdin).readToEnd
  match Scenario.ofText? words (if text = "" then "\x7b\x7d" else text) with
  | some invocation => printOutcome invocation.run
  | none =>
    IO.eprintln "The scenario is not JSON."
    return 1
