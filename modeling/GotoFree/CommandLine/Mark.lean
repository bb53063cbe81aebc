import GotoFree.Json.Scan
import GotoFree.Lowering.Rejection
import GotoFree.Text.Width

/-!
# Marked places

Places in the text of an input, and how a place is marked where the text is shown. Positions are
counted in bytes from the start of the text. A mark within one line has carets under the marked
characters; a mark over several lines has a bracket at the left, from a caret under its first
character to a caret under its last one.
-/

namespace GotoFree

/-! ## Positions -/

/-- The number of characters before the first occurrence of a text in another. -/
def findText (sought : List Char) : List Char → Option Nat
  | [] => if sought.isEmpty then some 0 else none
  | c :: rest =>
      if sought.isPrefixOf (c :: rest) then some 0 else (findText sought rest).map (· + 1)

/-- The name of a method as it stands in the source, in its quotes. -/
def quotedName (method : MethodId) : List Char := '"' :: method.text.toList ++ ['"']

/-- The bytes where a source first names a method: the start and the end of the quoted name. -/
def firstMention (source : List Char) (method : MethodId) : Option (Nat × Nat) := do
  let before ← findText (quotedName method) source
  let start := Json.byteCount (source.take before)
  return (start, start + Json.byteCount (quotedName method))

/-- The lines of a text, each with its line feed. -/
def linesOf : List Char → List (List Char)
  | [] => []
  | c :: rest =>
      if c = '\n' then [c] :: linesOf rest
      else match linesOf rest with
        | [] => [[c]]
        | line :: lines => (c :: line) :: lines

/-- The byte at a line and a column, both counted from 1, or the end of the text if it has no such
place. -/
def byteAt (source : List Char) (line column : Nat) : Nat :=
  let before := ((linesOf source).take (line - 1)).flatten
  min (Json.byteCount before + (column - 1)) (Json.byteCount source)

/-- The line of a place, given the text before it. -/
def lineAfter (before : List Char) : Nat := before.count '\n' + 1

/-- The column of a place in bytes, given the text before it. -/
def columnAfter (before : List Char) : Nat :=
  Json.byteCount (before.reverse.takeWhile (· ≠ '\n')) + 1

/-! ## Marks -/

/-- The first line of a text and the lines behind it, without the line feeds between them. -/
def splitLines : List Char → List Char × List (List Char)
  | [] => ([], [])
  | c :: rest =>
      let (line, lines) := splitLines rest
      if c = '\n' then ([], line :: lines) else (c :: line, lines)

/-- A marked place of a text. -/
structure Mark where
  /-- The number of the line where the mark starts. -/
  line : Nat
  /-- The characters of that line before the mark. -/
  before : List Char
  /-- The marked characters of that line. -/
  marked : List Char
  /-- What is marked of the lines behind it. -/
  more : List (List Char)
  /-- The characters of the mark's last line behind the mark. -/
  after : List Char

namespace Mark

/-- The first characters of a text that take up a number of bytes, and the rest. -/
def splitBytes : Nat → List Char → List Char × List Char
  | _, [] => ([], [])
  | bytes, c :: rest =>
      if bytes = 0 then ([], c :: rest)
      else
        let (first, last) := splitBytes (bytes - c.utf8Size) rest
        (c :: first, last)

/-- The mark between two bytes of a text. -/
def between (source : List Char) (start stop : Nat) : Mark :=
  let (before, rest) := splitBytes start source
  let (inside, after) := splitBytes (stop - start) rest
  let (marked, more) := splitLines inside
  { line := lineAfter before
    before := (before.reverse.takeWhile (· ≠ '\n')).reverse
    marked := marked
    more := more
    after := after.takeWhile (· ≠ '\n') }

/-- The column of the mark in characters. -/
def column (mark : Mark) : Nat := mark.before.length + 1

/-- The number of the last line of the mark. -/
def lastLine (mark : Mark) : Nat := mark.line + mark.more.length

/-- Whether nothing but blanks stands before the mark. -/
def startsLine (mark : Mark) : Bool := mark.before.all Json.isBlank

end Mark

/-! ## Columns -/

/-- The columns that a character takes that stands at a column; a tabulator goes on to the next
multiple of four. -/
def widthAt (column : Nat) (c : Char) : Nat := if c = '\t' then 4 - column % 4 else columns c

/-- The column behind a text that stands at a column. -/
def advance (column : Nat) (text : List Char) : Nat :=
  text.foldl (fun column c => column + widthAt column c) column

/-- The characters of a text that stands at a column, with blanks for its tabulators. -/
def expanded (column : Nat) : List Char → List Char
  | [] => []
  | c :: rest =>
      (if c = '\t' then List.replicate (widthAt column c) ' ' else [c]) ++
        expanded (column + widthAt column c) rest

/-- A line as it is shown: returns and nulls at its end fall away, and tabulators are blanks. -/
def shownLine (line : List Char) : String :=
  String.ofList (expanded 0 (line.reverse.dropWhile fun c => c = '\r' || c = '\x00').reverse)

/-! ## Rows -/

/-- A row of a report: its head stands at the right end of the margin. -/
def row (margin : Nat) (head body : String) : String :=
  "".pushn ' ' (margin - head.length) ++ head ++ " " ++ body ++ "\n"

/-- Rows of lines inside a mark. The first three and the last one stay; between them, two or more
are replaced by one row that says that something is left out. -/
def shortened (leftOut : String) (rows : List String) : List String :=
  if rows.length ≤ 5 then rows else rows.take 3 ++ leftOut :: rows.drop (rows.length - 1)

namespace Mark

/-- The blanks and carets under a line. A mark without characters has the width of the character
behind it, or one caret at the end of the line. -/
def carets (mark : Mark) : String :=
  let start := advance 0 mark.before
  let stop :=
    match mark.marked, mark.after with
    | [], [] => start + 1
    | [], c :: _ => start + widthAt start c
    | marked, _ => advance start marked
  "".pushn ' ' start ++ "".pushn '^' (stop - start)

/-- The rows of a mark within one line. -/
def rowsOfLine (margin : Nat) (mark : Mark) (message : String) : List String :=
  [row margin (toString mark.line) ("│ " ++ shownLine (mark.before ++ mark.marked ++ mark.after)),
    row margin "" ("│ " ++ mark.carets ++ " " ++ message)]

/-- The rows of a mark over several lines. The bracket opens beside the first line if the line
starts with the mark, and under it otherwise. -/
def rowsOfLines (margin : Nat) (mark : Mark) (message : String) : List String :=
  let first := shownLine (mark.before ++ mark.marked)
  let last := mark.more.getLastD []
  let opening :=
    if mark.startsLine then [row margin (toString mark.line) ("│ ╭ " ++ first)]
    else
      [row margin (toString mark.line) ("│   " ++ first),
        row margin "" ("│ ╭" ++ line (mark.before ++ mark.marked.take 1) ++ "^")]
  let inside := (mark.more.dropLast.zipIdx (mark.line + 1)).map fun (text, number) =>
    row margin (toString number) ("│ │ " ++ shownLine text)
  let closing :=
    [row margin (toString mark.lastLine) ("│ │ " ++ shownLine (last ++ mark.after)),
      row margin "" ("│ ╰" ++ line last ++ "^ " ++ message)]
  opening ++ shortened (row margin "" "· │") inside ++ closing
where
  /-- A line under a text. -/
  line (text : List Char) : String := "".pushn '─' (advance 0 text)

/-- The rows of a mark. -/
def rows (margin : Nat) (mark : Mark) (message : String) : List String :=
  if mark.more.isEmpty then mark.rowsOfLine margin message else mark.rowsOfLines margin message

/-- The row above and below the rows of a mark; it leaves room for a bracket. -/
def emptyRow (margin : Nat) (mark : Mark) : String :=
  row margin "" (if mark.more.isEmpty then "│" else "│  ")

end Mark

end GotoFree
