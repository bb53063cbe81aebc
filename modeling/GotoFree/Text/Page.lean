/-!
# Indented text

A page is text that grows at its end and knows how far new lines are indented. The indentation of a
line, two blanks for each level, is written before the line's first character, so empty lines stay
empty and a change of the level counts from the next line that gets a character.
-/

namespace GotoFree

/-- Text that grows at its end. -/
structure Page where
  text : String
  /-- The number of levels by which a new line is indented. -/
  level : Nat
  /-- Whether nothing stands on the last line yet. -/
  atLineStart : Bool
deriving DecidableEq

namespace Page

/-- A page without text. -/
def empty : Page := ⟨"", 0, true⟩

/-- Adds a character. -/
def push (page : Page) (c : Char) : Page :=
  if c = '\n' then { page with text := page.text.push c, atLineStart := true }
  else if page.atLineStart then
    { page with text := (page.text.pushn ' ' (2 * page.level)).push c, atLineStart := false }
  else { page with text := page.text.push c }

/-- Adds a text, character by character. -/
def write (page : Page) (text : String) : Page := text.toList.foldl push page

/-- Ends the line. -/
def newline (page : Page) : Page := page.push '\n'

/-- Adds a text and ends the line. -/
def line (page : Page) (text : String) : Page := (page.write text).newline

/-- Ends the line if asked to, and indents by one level more. -/
def indent (page : Page) (endLine : Bool) : Page :=
  let page := if endLine then page.newline else page
  { page with level := page.level + 1 }

/-- Indents by one level less, and ends the line if asked to. -/
def dedent (page : Page) (endLine : Bool) : Page :=
  let page := { page with level := page.level - 1 }
  if endLine then page.newline else page

/-- Adds texts with a separator between them. -/
def separated (page : Page) (separator : String) : List String → Page
  | [] => page
  | [text] => page.write text
  | text :: rest => ((page.write text).write separator).separated separator rest

end Page

end GotoFree
