import GotoFree.CommandLine.Mark

/-!
# Reports

A report says why an input was not lowered and points at the place in its text: the marked lines
stand under the place's position, and notes under them.
-/

namespace GotoFree

/-- A report about an input. -/
structure Report where
  message : String
  /-- The marked place and what is said about it. -/
  label : Option (Mark × String)
  /-- Notes at the end. -/
  notes : List String

namespace Report

/-- The width of the margin, in which the greatest line number has room. -/
def margin (report : Report) : Nat :=
  match report.label with
  | some (mark, _) => (toString mark.lastLine).length
  | none => 0

/-- The rows about a marked place in a file. A row without text parts them from notes. -/
def labelRows (report : Report) (file : String) : List String :=
  match report.label with
  | some (mark, message) =>
      row report.margin "" ("┌─ " ++ file ++ ":" ++ toString mark.line ++ ":"
          ++ toString mark.column) ::
        mark.emptyRow report.margin :: mark.rows report.margin message
          ++ if report.notes.isEmpty then [] else [mark.emptyRow report.margin]
  | none => []

/-- The text of a report about a file. -/
def text (report : Report) (file : String) : String :=
  "error: " ++ report.message ++ "\n" ++ String.join (report.labelRows file)
    ++ String.join (report.notes.map fun note => row report.margin "" ("= " ++ note)) ++ "\n"

/-- The report about a program that is not lowered; it points at the first place that names the
method at fault. -/
def ofRejection (source : String) (reason : Rejection) : Report where
  message := reason.message
  label := do
    let method ← reason.method?
    let (start, stop) ← firstMention source.toList method
    return (Mark.between source.toList start stop, "in this method")
  notes := reason.cause?.toList.map ("caused by: " ++ ·)

/-- The report about a text that is no program. -/
def ofStop (source : String) (stop : Json.Stop) : Report :=
  let before := source.toList.take (source.length - stop.ahead.length)
  let start := byteAt source.toList (lineAfter before) (columnAfter before)
  { message := "invalid program description"
    label := some (Mark.between source.toList start start, stop.fault.message)
    notes := [] }

end Report

end GotoFree
