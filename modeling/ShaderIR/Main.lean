import ShaderIR.CommandLine

/-!
# The program

Reads the stream that the command line names and prints or writes its listing.
-/

namespace ShaderIR.CommandLine

/-- Prints the records that are grave enough to be shown. -/
def printLog (verbose : Bool) (log : List LogRecord) : IO Unit :=
  (log.filter (·.passes (if verbose then .debug else .warn))).forM fun r => IO.eprintln r.text

/-- Gives the product of a command. -/
def deliver : Product → IO Unit
  | .nothing => pure ()
  | .print text => IO.print text
  | .write path text => IO.FS.writeFile path text

/-- Carries out a command and answers the exit code. -/
def perform (command : Command) : IO UInt32 := do
  let contents ← IO.FS.readBinFile command.input
  let outcome := command.run contents.data.toList
  printLog command.verbose outcome.log
  match outcome.result with
  | .error failure =>
    IO.eprintln s!"Error: {failure.message}"
    return failure.exitCode
  | .ok product =>
    deliver product
    return exitSuccess

end ShaderIR.CommandLine

open ShaderIR.CommandLine in
/-- The entry point of the program. -/
def main (args : List String) : IO UInt32 := do
  match Command.ofArguments args with
  | .error e =>
    IO.eprintln s!"error: {e.message}"
    return exitUsage
  | .ok command =>
    try
      perform command
    catch e =>
      IO.eprintln s!"Error: {e}"
      return exitFailure
