import GotoFree.CommandLine.FileSystem
import GotoFree.CommandLine.Report
import GotoFree.CommandLine.Settings
import GotoFree.Lowering
import GotoFree.Program.Decode

/-!
# A run

A run reads a program description, lowers the program and writes the result. Nothing is written
unless lowering succeeds.
-/

namespace GotoFree

/-- Why a run fails. -/
inductive RunFault where
  | unreadable (path : String)
  /-- The input is no program description. -/
  | undecodable (path source : String) (stop : Json.Stop)
  /-- The program is not lowered. -/
  | rejected (path source : String) (reason : Rejection)
  | defect (defect : Defect)
  /-- A directory for the result cannot be made. -/
  | uncreatable (path : String)
  | unwritable (path : String)

namespace RunFault

/-- The fault in one line. -/
def summary : RunFault → String
  | unreadable path => "failed to read " ++ path
  | undecodable path _ _ => "failed to parse " ++ path
  | rejected .. => "exiting with translation errors"
  | defect found => found.message.getD "an internal step failed"
  | uncreatable path => "failed to create " ++ path
  | unwritable path => "failed to write " ++ path

/-- The report about the input, if it is to blame. -/
def report : RunFault → String
  | undecodable path source stop => (Report.ofStop source stop).text path
  | rejected path source reason => (Report.ofRejection source reason).text path
  | unreadable _ | defect _ | uncreatable _ | unwritable _ => ""

end RunFault

/-- Lowers the program that a source describes. -/
def compile (settings : Settings) (path source : String) : Except RunFault LoweredProgram :=
  match Program.parse source with
  | .error stop => throw (.undecodable path source stop)
  | .ok program =>
      match program.lower settings.model settings.entry with
      | .error (.rejected reason) => throw (.rejected path source reason)
      | .error (.defect found) => throw (.defect found)
      | .ok lowered => return lowered

/-- Writes a text to a path, in a directory that is made if it is missing. -/
def save {m : Type → Type} [Monad m] (disk : Disk m) (path text : String) :
    ExceptT RunFault m Unit := do
  if let some directory := Path.parent? path then
    if !(← disk.makeDirectories directory) then
      throw (.uncreatable directory)
  if !(← disk.write path text) then
    throw (.unwritable path)

/-- Writes a lowered program where the settings want it; the answer is what is left to print. -/
def deliver {m : Type → Type} [Monad m] (disk : Disk m) (settings : Settings)
    (lowered : LoweredProgram) : ExceptT RunFault m String := do
  if let some path := settings.output then
    save disk path lowered.program.text
  if let some path := settings.flags then
    save disk path lowered.tables
  return if settings.output.isSome then "" else lowered.program.text

/-- Lowers the program of an input file; the answer is the warnings and what is left to print. -/
def lowerFile {m : Type → Type} [Monad m] (disk : Disk m) (settings : Settings) (input : String) :
    ExceptT RunFault m (List String × String) := do
  let some source ← disk.read input
    | throw (.unreadable input)
  let lowered ← ExceptT.mk (pure (compile settings input source))
  let printed ← deliver disk settings lowered
  return (lowered.warnings, printed)

end GotoFree
