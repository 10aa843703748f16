import PoolScript.CommandLine

/-!
# The program

Reads the files that the command line names, and prints the answer.
-/

namespace PoolScript.CommandLine

/-- The contents of a file, if it can be read. -/
def readFile? (path : String) : IO (Option String) :=
  try return some (← IO.FS.readFile path)
  catch _ => return none

end PoolScript.CommandLine

open PoolScript

/-- Answers a command line. -/
def main (args : List String) : IO UInt32 := do
  let paths := (CommandLine.Command.ofArgs {} args).toOption.elim [] CommandLine.Command.files
  let contents ← paths.mapM CommandLine.readFile?
  let files (path : String) := ((paths.zip contents).lookup path).join
  match CommandLine.answer (Nat.pow 2 62) files args with
  | some answer =>
    IO.print answer.output
    return .ofNat answer.exit
  | none => return 1
