import FilterQuery.CommandLine

/-!
# Main — the program

It reads the standard input to its end if the command wants it and nobody is typing it.
-/

namespace FilterQuery.CommandLine

/-- What the standard input gives a command: nothing if it does not want it, or if it is a
terminal. -/
def readStandardInput (args : List String) : IO (Option ByteArray) := do
  match Command.ofArguments args with
  | .ok command =>
    let stdin ← IO.getStdin
    if !command.readsInput || (← stdin.isTty) then return none
    else return some (← stdin.readBinToEnd)
  | .error _ => return none

end FilterQuery.CommandLine

/-- Carries the arguments out. -/
def main (args : List String) : IO UInt32 := do
  let output := FilterQuery.CommandLine.run args
    (← FilterQuery.CommandLine.readStandardInput args)
  IO.print output.stdout
  IO.eprint output.stderr
  return output.code.toUInt32
