import GotoFree.Json.Scan
import GotoFree.Storage.ObjectModel

/-!
# Configuration files

A configuration file is a TOML document that gives text to some of four keys. Blanks, empty lines
and comments may stand between the entries. A key is a bare word or quoted; a text is a basic or a
literal string, on one line or on several. The object model may also be chosen by a table whose
only key is the model's name and whose only value is an empty table. A document with another key,
another kind of value or a key that is given twice is no configuration file.

Documents are read entry by entry. `Progress.take` says which entries may follow which.
-/

namespace GotoFree

/-- What a configuration file says. -/
structure Config where
  model : Option ObjectModel
  output : Option String
  flags : Option String
  entry : Option String
deriving DecidableEq

namespace Config

/-- A file that says nothing. -/
def empty : Config := ⟨none, none, none, none⟩

/-- A value for a key that has none yet. -/
def once {α : Type} (old new : Option α) : Option (Option α) :=
  if old.isSome then none else new.map some

/-- The configuration with an object model, which it must not have yet. -/
def choose (config : Config) (name : String) : Option Config := do
  return { config with model := ← once config.model (ObjectModel.ofName? name) }

/-- The configuration with a text for a key, which must not have one yet. -/
def put (config : Config) (key value : String) : Option Config := do
  match key with
  | "model" => config.choose value
  | "output" => return { config with output := ← once config.output (some value) }
  | "flags" => return { config with flags := ← once config.flags (some value) }
  | "entry" => return { config with entry := ← once config.entry (some value) }
  | _ => none

/-! ## Entries -/

/-- The key of the object model, which may be a table. -/
def modelKey : String := "model"

/-- What a line of a document says. -/
inductive Entry where
  /-- A key has a text. -/
  | text (key value : String)
  /-- A key has the empty table. -/
  | emptyTable (key : String)
  /-- A key has a table whose only key has the empty table. -/
  | choice (key name : String)
  /-- What follows belongs to the table of a key. -/
  | header (key : String)
  /-- What follows belongs to a table within the table of a key. -/
  | innerHeader (key name : String)
deriving DecidableEq

/-- What the next entry of a document belongs to. -/
inductive Place where
  /-- The document itself. -/
  | top
  /-- The table of the object model, which names no model yet. -/
  | model
  /-- The table of one model. The header of the table that it stands in may still follow. -/
  | named
  /-- A table of the object model that is complete. -/
  | complete
deriving DecidableEq

/-- How far a document is read. -/
structure Progress where
  config : Config
  place : Place
deriving DecidableEq

/-- Takes an entry into account. -/
def Progress.take (progress : Progress) : Entry → Option Progress
  | .text key value => do
      if progress.place ≠ .top then none
      return ⟨← progress.config.put key value, .top⟩
  | .choice key name => do
      if progress.place ≠ .top || key ≠ modelKey then none
      return ⟨← progress.config.choose name, .top⟩
  | .emptyTable name => do
      if progress.place ≠ .model then none
      return ⟨← progress.config.choose name, .complete⟩
  | .header key =>
      if key ≠ modelKey then none
      else match progress.place with
        | .top => if progress.config.model.isSome then none else some ⟨progress.config, .model⟩
        | .named => some ⟨progress.config, .complete⟩
        | .model | .complete => none
  | .innerHeader key name => do
      if key ≠ modelKey then none
      let config ← progress.config.choose name
      match progress.place with
      | .top => return ⟨config, .named⟩
      | .model => return ⟨config, .complete⟩
      | .named | .complete => none

/-- The configuration of a document that ends here. A table of the object model must name one. -/
def Progress.finish (progress : Progress) : Option Config :=
  if progress.place = .model then none else some progress.config

/-! ## Characters and lines -/

/-- Spaces and tabulators separate what stands on a line. -/
def isBlank (c : Char) : Bool := c = ' ' || c = '\t'

/-- The characters of comments and strings: all but control characters. -/
def isText (c : Char) : Bool := c = '\t' || (' ' ≤ c && c ≤ '~') || 0x80 ≤ c.toNat

/-- The characters of a bare key. -/
def isBare (c : Char) : Bool := c.isAlphanum || c = '_' || c = '-'

/-- The text after a line end; the end of the text ends a line. -/
def lineEnd : List Char → Option (List Char)
  | [] => some []
  | '\n' :: rest => some rest
  | '\r' :: '\n' :: rest => some rest
  | _ => none

/-- The text after the line, if nothing but blanks and a comment is left on it. -/
def restOfLine (text : List Char) : Option (List Char) :=
  match text.dropWhile isBlank with
  | '#' :: rest => lineEnd (rest.dropWhile isText)
  | rest => lineEnd rest

/-! ## Strings -/

/-- The character of a one-letter escape. -/
def letterEscape : Char → Option Char
  | 'b' => some '\x08'
  | 't' => some '\t'
  | 'n' => some '\n'
  | 'f' => some '\x0c'
  | 'r' => some '\r'
  | '"' => some '"'
  | '\\' => some '\\'
  | _ => none

/-- The character of a hexadecimal code point. -/
def codePoint (digits : List Char) : Option Char := do
  let values ← digits.mapM Json.hexValue
  let point := values.foldl (fun point digit => 16 * point + digit) 0
  if point.isValidChar then some (Char.ofNat point) else none

/-- Where a string on several lines stands between a backslash at the end of a line and the next
character that is no blank. -/
inductive Fold where
  | outside
  /-- After the backslash, before the end of its line. -/
  | opening
  | within
deriving DecidableEq

/-- Closes a string on several lines behind its three closing quotes. Up to two more quotes belong
to the string. -/
def closeLong (quote : Char) (done : List Char) (rest : List Char) : List Char × List Char :=
  match rest with
  | first :: second :: more =>
      if first = quote && second = quote then (quote :: quote :: done, more)
      else if first = quote then (quote :: done, second :: more)
      else (done, rest)
  | [only] => if only = quote then (quote :: done, []) else (done, rest)
  | [] => (done, [])

/-- Reads a basic string on one line from behind its opening quote. The characters read so far
stand in `done`, the latest first. -/
def basicTail (done : List Char) : List Char → Option (List Char × List Char)
  | [] => none
  | '"' :: rest => some (done, rest)
  | '\\' :: 'u' :: a :: b :: c :: d :: rest => do
      basicTail ((← codePoint [a, b, c, d]) :: done) rest
  | '\\' :: 'U' :: a :: b :: c :: d :: e :: f :: g :: h :: rest => do
      basicTail ((← codePoint [a, b, c, d, e, f, g, h]) :: done) rest
  | '\\' :: c :: rest => do basicTail ((← letterEscape c) :: done) rest
  | c :: rest => if c ≠ '\\' && isText c then basicTail (c :: done) rest else none

/-- Reads a basic string on several lines from behind its opening quotes. -/
def longBasicTail (fold : Fold) (done : List Char) :
    List Char → Option (List Char × List Char)
  | [] => none
  | '\r' :: '\n' :: rest =>
      match fold with
      | .outside => longBasicTail .outside ('\n' :: done) rest
      | .opening | .within => longBasicTail .within done rest
  | '\n' :: rest =>
      match fold with
      | .outside => longBasicTail .outside ('\n' :: done) rest
      | .opening | .within => longBasicTail .within done rest
  | '"' :: '"' :: '"' :: rest =>
      if fold = .opening then none else some (closeLong '"' done rest)
  | '\\' :: 'u' :: a :: b :: c :: d :: rest => do
      if fold = .opening then none
      longBasicTail .outside ((← codePoint [a, b, c, d]) :: done) rest
  | '\\' :: 'U' :: a :: b :: c :: d :: e :: f :: g :: h :: rest => do
      if fold = .opening then none
      longBasicTail .outside ((← codePoint [a, b, c, d, e, f, g, h]) :: done) rest
  | '\\' :: c :: rest =>
      if fold = .opening then none
      else if c = '\n' then longBasicTail .within done rest
      else if isBlank c || c = '\r' then
        -- A return that no line feed follows is met again and refused.
        if c = '\r' && rest.head? ≠ some '\n' then none else longBasicTail .opening done rest
      else do longBasicTail .outside ((← letterEscape c) :: done) rest
  | c :: rest =>
      if isBlank c && fold ≠ .outside then longBasicTail fold done rest
      else if c ≠ '\\' && isText c && fold ≠ .opening then
        longBasicTail .outside (c :: done) rest
      else none

/-- Reads a literal string on one line from behind its opening quote. -/
def literalTail (done : List Char) : List Char → Option (List Char × List Char)
  | [] => none
  | '\x27' :: rest => some (done, rest)
  | c :: rest => if isText c then literalTail (c :: done) rest else none

/-- Reads a literal string on several lines from behind its opening quotes. -/
def longLiteralTail (done : List Char) : List Char → Option (List Char × List Char)
  | [] => none
  | '\r' :: '\n' :: rest | '\n' :: rest => longLiteralTail ('\n' :: done) rest
  | '\x27' :: '\x27' :: '\x27' :: rest => some (closeLong '\x27' done rest)
  | c :: rest => if isText c then longLiteralTail (c :: done) rest else none

/-- The text from behind a line end, if there is one. -/
def skipLineEnd (text : List Char) : List Char :=
  match text with
  | [] => []
  | _ => (lineEnd text).getD text

/-- Reads a text. -/
def readText (text : List Char) : Option (String × List Char) := do
  let (done, rest) ← match text with
    | '"' :: '"' :: '"' :: rest => longBasicTail .outside [] (skipLineEnd rest)
    | '"' :: rest => basicTail [] rest
    | '\x27' :: '\x27' :: '\x27' :: rest => longLiteralTail [] (skipLineEnd rest)
    | '\x27' :: rest => literalTail [] rest
    | _ => none
  return (String.ofList done.reverse, rest)

/-- Reads a key. -/
def readKey (text : List Char) : Option (String × List Char) := do
  match text with
  | '"' :: rest =>
      let (done, rest) ← basicTail [] rest
      return (String.ofList done.reverse, rest)
  | '\x27' :: rest =>
      let (done, rest) ← literalTail [] rest
      return (String.ofList done.reverse, rest)
  | _ =>
      let bare := text.takeWhile isBare
      if bare.isEmpty then none else return (String.ofList bare, text.drop bare.length)

/-- Reads a key that stands between blanks. -/
def readSpacedKey (text : List Char) : Option (String × List Char) := do
  let (key, rest) ← readKey (text.dropWhile isBlank)
  return (key, rest.dropWhile isBlank)

/-! ## Documents -/

/-- Reads a character, with the blanks before it. -/
def readMark (mark : Char) (text : List Char) : Option (List Char) :=
  match text.dropWhile isBlank with
  | c :: rest => if c = mark then some rest else none
  | [] => none

/-- Reads an empty table. -/
def readEmptyTable (text : List Char) : Option (List Char) := do
  readMark '}' (← readMark '{' text)

/-- Reads a table whose only key has the empty table. -/
def readChoice (text : List Char) : Option (String × List Char) := do
  let (name, rest) ← readSpacedKey (← readMark '{' text)
  return (name, ← readMark '}' (← readEmptyTable (← readMark '=' rest)))

/-- Reads the value of a key. -/
def readValue (key : String) (text : List Char) : Option (Entry × List Char) :=
  match readEmptyTable text with
  | some rest => some (.emptyTable key, rest)
  | none =>
      match readChoice text with
      | some (name, rest) => some (.choice key name, rest)
      | none => do
          let (value, rest) ← readText (text.dropWhile isBlank)
          return (.text key value, rest)

/-- Reads the header of a table from behind its opening bracket. -/
def readHeader (text : List Char) : Option (Entry × List Char) := do
  let (key, rest) ← readSpacedKey text
  match rest with
  | ']' :: rest => return (.header key, rest)
  | '.' :: rest =>
      let (name, rest) ← readSpacedKey rest
      return (.innerHeader key name, ← readMark ']' rest)
  | _ => none

/-- Reads a key and its value. -/
def readAssignment (text : List Char) : Option (Entry × List Char) := do
  let (key, rest) ← readSpacedKey text
  match rest with
  | '=' :: rest => readValue key rest
  | '.' :: rest =>
      let (name, rest) ← readSpacedKey rest
      return (.choice key name, ← readEmptyTable (← readMark '=' rest))
  | _ => none

/-- Reads an entry with the rest of its line. -/
def readEntry (text : List Char) : Option (Entry × List Char) := do
  let (entry, rest) ← match text.dropWhile isBlank with
    | '[' :: rest => readHeader rest
    | _ => readAssignment text
  return (entry, ← restOfLine rest)

/-- Reads up to a number of lines. -/
def readLines (progress : Progress) : Nat → List Char → Option Config
  | _, [] => progress.finish
  | 0, _ :: _ => none
  | lines + 1, text =>
      match restOfLine text with
      | some rest => readLines progress lines rest
      | none => do
          let (entry, rest) ← readEntry text
          readLines (← progress.take entry) lines rest

/-- Reads a configuration file. A byte order mark may stand at its start. Every line takes away a
character, so there are no more lines than characters. -/
def parse (document : String) : Option Config :=
  let text := match document.toList with
    | '\uFEFF' :: rest => rest
    | text => text
  readLines ⟨empty, .top⟩ text.length text

end Config

end GotoFree
