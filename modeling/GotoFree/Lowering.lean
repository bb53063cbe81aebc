import GotoFree.Lowering.Entry
import GotoFree.Lowering.Method

/-!
# Lowering a program

Starting with the entry method, every method that a lowered one refers to is lowered in its turn.
The answer is the program in the structured language with two tables for its readers: which flag
stands for which coordinate, and which tag for which class.
-/

namespace GotoFree

/-- A lowered program with its tables. -/
structure LoweredProgram where
  program : Target.Program
  /-- The flags of each method's function, in the order of lowering. -/
  flags : List (String × List (Int × Coord))
  /-- The classes by tag. -/
  tags : List (Int × String)
  warnings : List String

namespace LoweredProgram

/-- The text of a table entry: a number and a quoted name. -/
def entryText (number : Int) (name : String) : String :=
  "(" ++ Target.Expr.intText number ++ " \"" ++ name ++ "\")"

/-- The text of the flags of one function. -/
def flagsText (name : String) (flags : List (Int × Coord)) : String :=
  "\n  (" ++ name ++ String.join (flags.map fun (flag, coord) =>
    " " ++ entryText flag coord.text) ++ ")"

/-- The tables as nested lists in brackets. Functions without flags are left out. -/
def tablesText (flags : List (String × List (Int × Coord))) (tags : List (Int × String)) :
    String :=
  let used := flags.filter fun entry => !entry.2.isEmpty
  "(flags" ++ String.join (used.map fun (name, flags) => flagsText name flags) ++ ")\n(tags"
    ++ String.join (tags.map fun (tag, className) => "\n  " ++ entryText tag className) ++ ")\n"

/-- The text of the program's tables. -/
def tables (lowered : LoweredProgram) : String :=
  tablesText lowered.flags lowered.tags

end LoweredProgram

namespace Lower

/-- Lowers the methods in the queue, and those that join it meanwhile, up to a number of
methods. -/
def queued (setting : Setting) : Nat → Lower (List MethodCode)
  | 0 => return []
  | steps + 1 => do
      let progress ← get
      match progress.agenda.queue with
      | [] => return []
      | id :: queue =>
          set { progress with agenda := { progress.agenda with queue } }
          match setting.program.method? id with
          | none => reject (.internal ("queued method " ++ id.text ++ " has no body"))
          | some method =>
              let code ← Lower.method setting id method
              return code :: (← queued setting steps)

/-- Lowers a program from its entry on. Each method joins the queue once, so no more methods are
lowered than there are. -/
def program (setting : Setting) : Lower LoweredProgram := do
  let entry := setting.program.entry
  match setting.program.method? entry with
  | none => reject (.malformed ("entry method " ++ entry.text ++ " has no body"))
  | some method =>
      let name ← request entry method
      let codes ← queued setting setting.program.methods.size
      return {
        program := ⟨codes.flatMap MethodCode.functions, some name⟩
        flags := codes.map fun code => (code.name, code.flags)
        tags := setting.layout.tags.map fun (tag, className) => ((tag : Int), className)
        warnings := (← get).warnings
      }

end Lower

namespace Program

/-- Lowers a program whose entry method takes no arguments, with its layout. -/
def lowerWith (program : Program) (layout : Layout) (model : ObjectModel) :
    Except Failure LoweredProgram :=
  (Lower.program ⟨program, layout, model⟩).run' .start

/-- Lowers a program with an object model. The entry method may be another than the program's
own. -/
def lower (program : Program) (model : ObjectModel) (entry : Option MethodId) :
    Except Failure LoweredProgram := do
  let chosen := { program with entry := entry.getD program.entry }
  let prepared ← chosen.withoutArguments.mapError Failure.rejected
  let layout ← (Layout.ofProgram prepared).mapError Failure.rejected
  prepared.lowerWith layout model

end Program

end GotoFree
