/-!
# Scanning JSON text

The parts of JSON text below the level of values: blanks, words and strings. Scanning stops with a
`Stop`, which says what is wrong and where. Two kinds of fault belong to the text alone: it is not
JSON (`malformed`), or it ends early (`truncated`); the third, `mismatched`, is raised by the
readers that expect a certain shape.
-/

namespace GotoFree.Json

/-- Why reading stopped. -/
inductive Fault where
  /-- The text is not JSON. -/
  | malformed
  /-- The text ends before the value does. -/
  | truncated
  /-- The text is JSON, but not of the expected shape or range. -/
  | mismatched
deriving DecidableEq

/-- The word for a fault in reports. -/
def Fault.category : Fault → String
  | .malformed => "syntax"
  | .truncated => "eof"
  | .mismatched => "data"

/-- What a fault means to the writer of the text. -/
def Fault.message : Fault → String
  | .malformed => "this is not JSON"
  | .truncated => "the text ends here"
  | .mismatched => "this is not what is expected here"

/-- A fault and the text that was still ahead. -/
structure Stop where
  fault : Fault
  ahead : List Char

/-- Reads a value off the front of a text and returns it with what is left. -/
abbrev Scan (α : Type) := List Char → Except Stop (α × List Char)

/-- Space, line feed, carriage return and tabulator stand freely between tokens. -/
def isBlank (c : Char) : Bool := c = ' ' || c = '\n' || c = '\r' || c = '\t'

/-- The text from the first character on that is no blank. -/
def skipBlanks (text : List Char) : List Char := text.dropWhile isBlank

/-- Reads the characters of a word. -/
def word : List Char → List Char → Except Stop (List Char)
  | [], text => .ok text
  | _ :: _, [] => .error ⟨.truncated, []⟩
  | expected :: more, c :: rest =>
      if c = expected then word more rest else .error ⟨.malformed, rest⟩

/-! ## Strings -/

/-- The value of a hexadecimal digit in either case. -/
def hexValue (c : Char) : Option Nat :=
  if '0' ≤ c ∧ c ≤ '9' then some (c.toNat - '0'.toNat)
  else if 'a' ≤ c ∧ c ≤ 'f' then some (c.toNat - 'a'.toNat + 10)
  else if 'A' ≤ c ∧ c ≤ 'F' then some (c.toNat - 'A'.toNat + 10)
  else none

/-- The number of four hexadecimal digits. -/
def hexNumber (a b c d : Char) : Option Nat := do
  return ((((← hexValue a) * 16 + (← hexValue b)) * 16) + (← hexValue c)) * 16 + (← hexValue d)

/-- The character of a one-letter escape. -/
def letterEscape (c : Char) : Option Char :=
  if c = '"' ∨ c = '\\' ∨ c = '/' then some c
  else if c = 'b' then some (Char.ofNat 8)
  else if c = 'f' then some (Char.ofNat 12)
  else if c = 'n' then some '\n'
  else if c = 'r' then some '\r'
  else if c = 't' then some '\t'
  else none

/-- The number of bytes of a text. -/
def byteCount (text : List Char) : Nat := text.foldl (fun count c => count + c.utf8Size) 0

/-- What is wrong where four hexadecimal digits should stand and do not: four bytes are looked at
together, so a text with fewer has ended. -/
def hexFault (text : List Char) : Fault :=
  if byteCount text < 4 then .truncated else .malformed

/-- What is wrong after the first half of a surrogate pair where no second half follows. -/
def pairFault : List Char → Fault
  | [] | ['\\'] => .truncated
  | '\\' :: 'u' :: text => hexFault text
  | _ => .malformed

/-- Whether a number is the first half of a surrogate pair. -/
def isHighSurrogate (n : Nat) : Bool := 0xD800 ≤ n && n ≤ 0xDBFF

/-- Whether a number is the second half of a surrogate pair. -/
def isLowSurrogate (n : Nat) : Bool := 0xDC00 ≤ n && n ≤ 0xDFFF

/-- Reads a string from behind its opening quote. The characters read so far stand in `done`, the
latest first. -/
def stringTail (done : List Char) : Scan String
  | [] => .error ⟨.truncated, []⟩
  | '"' :: rest => .ok (String.ofList done.reverse, rest)
  | ['\\'] => .error ⟨.truncated, []⟩
  | '\\' :: 'u' :: a :: b :: c :: d :: rest =>
      match hexNumber a b c d with
      | none => .error ⟨.malformed, rest⟩
      | some high =>
          if isLowSurrogate high then .error ⟨.malformed, rest⟩
          else if isHighSurrogate high then
            match rest with
            | '\\' :: 'u' :: a :: b :: c :: d :: rest =>
                match hexNumber a b c d with
                | none => .error ⟨.malformed, rest⟩
                | some low =>
                    if isLowSurrogate low then
                      let point := 0x10000 + (high - 0xD800) * 0x400 + (low - 0xDC00)
                      stringTail (Char.ofNat point :: done) rest
                    else .error ⟨.malformed, rest⟩
            | unpaired => .error ⟨pairFault unpaired, unpaired⟩
          else stringTail (Char.ofNat high :: done) rest
  | '\\' :: 'u' :: short => .error ⟨hexFault short, short⟩
  | '\\' :: c :: rest =>
      match letterEscape c with
      | some meant => stringTail (meant :: done) rest
      | none => .error ⟨.malformed, rest⟩
  | c :: rest =>
      if c.toNat < 0x20 then .error ⟨.malformed, rest⟩ else stringTail (c :: done) rest

/-- Passes over a string from behind its opening quote. Escapes have to be well formed, but halves
of surrogate pairs may stand alone. -/
def skipString : List Char → Except Stop (List Char)
  | [] => .error ⟨.truncated, []⟩
  | '"' :: rest => .ok rest
  | ['\\'] => .error ⟨.truncated, []⟩
  | '\\' :: 'u' :: a :: b :: c :: d :: rest =>
      if (hexNumber a b c d).isSome then skipString rest else .error ⟨.malformed, rest⟩
  | '\\' :: 'u' :: short => .error ⟨hexFault short, short⟩
  | '\\' :: c :: rest =>
      if (letterEscape c).isSome then skipString rest else .error ⟨.malformed, rest⟩
  | c :: rest => if c.toNat < 0x20 then .error ⟨.malformed, rest⟩ else skipString rest

end GotoFree.Json
