import PulseCircuit.CommandLine.Execution

/-!
# The program

Reads the file that the command line names, executes the command, and prints.
-/

namespace PulseCircuit

def usage : String :=
  "usage: pulse-circuit [--validate] run <scene> [--beats <n>] [--history <n>]\n" ++
  "       pulse-circuit [--validate] peak <scene> <cell> [--colour red|green|blue]\n" ++
  "                                  [--timing past|now|future]\n" ++
  "       pulse-circuit [--validate] check <scene>\n" ++
  "       pulse-circuit [--validate] dump <scene>"

/-- The text of the file at a path, if there is one that can be read. -/
def readFile? (path : String) : IO (Option String) := do
  try
    return some (← IO.FS.readFile path)
  catch _ =>
    return none

/-- What went wrong, and below it the causes, numbered if there are several. -/
def failureLines : List String → List String
  | [] => []
  | [message] => ["Error: " ++ message]
  | [message, cause] => ["Error: " ++ message, "", "Caused by:", "    " ++ cause]
  | message :: causes =>
    let numbered := causes.mapIdx fun i cause => "    " ++ toString i ++ ": " ++ cause
    ["Error: " ++ message, "", "Caused by:"] ++ numbered

end PulseCircuit

open PulseCircuit in
def main (arguments : List String) : IO UInt32 := do
  match Invocation.ofArguments? arguments with
  | none =>
    IO.eprintln usage
    return 2
  | some invocation =>
    let outcome := invocation.execute (← readFile? invocation.command.scene)
    for line in outcome.lines do
      IO.println line
    for line in failureLines (outcome.failure.getD []) do
      IO.eprintln line
    return UInt32.ofNat outcome.code
