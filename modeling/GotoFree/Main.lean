import GotoFree.CommandLine.Run

/-!
# The command line program

The outer layer: the files, the arguments and the streams of the process.
-/

namespace GotoFree

/-- Runs an action that may fail, and says whether it does. -/
def succeeds (action : IO Unit) : IO Bool := do
  try
    action
    return true
  catch _ => return false

/-- The files of the process. -/
def processDisk : Disk IO where
  read path := do
    try return some (← IO.FS.readFile path)
    catch _ => return none
  makeDirectories path := succeeds (IO.FS.createDirAll path)
  write path text := succeeds (IO.FS.writeFile path text)

/-- Runs with arguments. -/
def run (arguments : Arguments) : IO UInt32 := do
  match ← Settings.resolve processDisk.read arguments with
  | .error fault =>
      IO.eprintln fault.message
      return 1
  | .ok settings =>
      match ← (lowerFile processDisk settings (arguments.input.getD "")).run with
      | .error fault =>
          IO.eprint fault.report
          IO.eprintln fault.summary
          return 1
      | .ok (warnings, printed) =>
          warnings.forM IO.eprintln
          IO.print printed
          return 0

/-- How the program is called. -/
def usage : String :=
  "usage: goto-free INPUT [-o OUTPUT] [-f FLAGS] [-m mutable|functional] [--entry METHOD]"
    ++ " [-c CONFIG] [-v]"

end GotoFree

/-- Lowers the program description that the arguments name. -/
def main (arguments : List String) : IO UInt32 := do
  match GotoFree.Arguments.parse true arguments with
  | .ok parsed => GotoFree.run parsed
  | .error .displayHelp =>
      IO.println GotoFree.usage
      return 0
  | .error fault =>
      IO.eprintln (fault.kind ++ "\n" ++ GotoFree.usage)
      return 2
