import GotoFree.Json.Number

/-!
# Reading values of an expected shape

A `Reader` walks the text with a shape in mind and stops at the first place where the two
disagree, so a value of the wrong shape is reported even if the text breaks off later. Containers
may be nested to a limit, which each reader gets as the number of containers that may still be
entered; values that nobody asked for are passed over without that limit.
-/

namespace GotoFree.Json

/-- Reads a value, given how many more containers may be entered. -/
abbrev Reader (α : Type) := Nat → Scan α

/-- Stops at a value of another kind than expected. A scalar is read to its end first, so one that
is broken is reported as such. -/
def refuse {α : Type} : List Char → Except Stop α
  | [] => .error ⟨.truncated, []⟩
  | 'n' :: rest => do throw ⟨.mismatched, ← word ['u', 'l', 'l'] rest⟩
  | 't' :: rest => do throw ⟨.mismatched, ← word ['r', 'u', 'e'] rest⟩
  | 'f' :: rest => do throw ⟨.mismatched, ← word ['a', 'l', 's', 'e'] rest⟩
  | '"' :: rest => do
      let (_, rest) ← stringTail [] rest
      throw ⟨.mismatched, rest⟩
  | '[' :: rest => throw ⟨.mismatched, '[' :: rest⟩
  | '{' :: rest => throw ⟨.mismatched, '{' :: rest⟩
  | '-' :: rest => do
      let (value, rest) ← number true rest
      throw ⟨if value.isFinite then .mismatched else .malformed, rest⟩
  | c :: rest =>
      if c.isDigit then do
        let (value, rest) ← number false (c :: rest)
        throw ⟨if value.isFinite then .mismatched else .malformed, rest⟩
      else throw ⟨.malformed, c :: rest⟩

/-! ## Scalars -/

/-- Reads a string. -/
def string : Reader String := fun _ text =>
  match skipBlanks text with
  | '"' :: rest => stringTail [] rest
  | other => refuse other

/-- Reads a boolean. -/
def boolean : Reader Bool := fun _ text =>
  match skipBlanks text with
  | 't' :: rest => do return (true, ← word ['r', 'u', 'e'] rest)
  | 'f' :: rest => do return (false, ← word ['a', 'l', 's', 'e'] rest)
  | other => refuse other

/-- Takes an integer between two bounds. Negative zero, a number with a point or an exponent and
one beyond the bounds are no such integer. -/
def Number.within (least most : Int) (value : Number) (rest : List Char) :
    Except Stop (Int × List Char) :=
  if !value.isFinite then throw ⟨.malformed, rest⟩
  else if !value.isIntegral || (value.negative && value.isZero) then throw ⟨.mismatched, rest⟩
  else if value.integer < least || most < value.integer then throw ⟨.mismatched, rest⟩
  else return (value.integer, rest)

/-- Reads an integer between two bounds. -/
def integer (least most : Int) : Reader Int := fun _ text =>
  match skipBlanks text with
  | '-' :: rest => do
      let (value, rest) ← number true rest
      value.within least most rest
  | c :: rest =>
      if c.isDigit then do
        let (value, rest) ← number false (c :: rest)
        value.within least most rest
      else refuse (c :: rest)
  | [] => refuse []

/-- Reads the word for no value. -/
def null : Reader Unit := fun _ text =>
  match skipBlanks text with
  | 'n' :: rest => do return ((), ← word ['u', 'l', 'l'] rest)
  | other => refuse other

/-- Reads a value or the word for none. -/
def nullable {α : Type} (read : Reader α) : Reader (Option α) := fun allowance text =>
  match skipBlanks text with
  | 'n' :: rest => do return (none, ← word ['u', 'l', 'l'] rest)
  | other => do
      let (value, rest) ← read allowance other
      return (some value, rest)

/-- Reads a value and changes it. -/
def mapped {α β : Type} (change : α → β) (read : Reader α) : Reader β := fun allowance text => do
  let (value, rest) ← read allowance text
  return (change value, rest)

/-! ## Containers -/

/-- What follows an item of a container, or its opening bracket. -/
inductive Step where
  /-- The container ends. -/
  | over (rest : List Char)
  /-- Another item starts here. -/
  | item (text : List Char)

/-- Finds the next item of a container. A comma stands between items, and none behind the last. -/
def nextItem (close : Char) (first : Bool) (text : List Char) : Except Stop Step :=
  match skipBlanks text with
  | [] => throw ⟨.truncated, []⟩
  | c :: rest =>
      if c = close then return .over rest
      else if first then return .item (c :: rest)
      else if c ≠ ',' then throw ⟨.malformed, c :: rest⟩
      else match skipBlanks rest with
        | [] => throw ⟨.truncated, []⟩
        | d :: rest =>
            if d = close then throw ⟨.malformed, d :: rest⟩ else return .item (d :: rest)

/-- Reads items up to the closing bracket. Each item takes a character, so the length of the text
bounds the number of steps. -/
def items {α : Type} (read : Scan α) : Nat → Bool → Scan (List α)
  | 0, _, text => throw ⟨.truncated, text⟩
  | steps + 1, first, text => do
      match ← nextItem ']' first text with
      | .over rest => return ([], rest)
      | .item text =>
          let (value, rest) ← read text
          let (values, rest) ← items read steps false rest
          return (value :: values, rest)

/-- Reads an array of values of one shape. -/
def list {α : Type} (read : Reader α) : Reader (List α) := fun allowance text =>
  match skipBlanks text with
  | '[' :: rest =>
      match allowance with
      | 0 => throw ⟨.malformed, '[' :: rest⟩
      | inner + 1 => items (read inner) (rest.length + 1) true rest
  | other => refuse other

/-- Reads the colon between the name and the value of a member. -/
def colon (text : List Char) : Except Stop (List Char) :=
  match skipBlanks text with
  | [] => throw ⟨.truncated, []⟩
  | ':' :: rest => return rest
  | other => throw ⟨.malformed, other⟩

/-- Reads the members of an object up to its closing bracket, each with `member`, which starts at
the quote that opens the name. -/
def members {σ : Type} (member : σ → Scan σ) : Nat → Bool → σ → Scan σ
  | 0, _, _, text => throw ⟨.truncated, text⟩
  | steps + 1, first, state, text => do
      match ← nextItem '}' first text with
      | .over rest => return (state, rest)
      | .item ('"' :: text) =>
          let (state, rest) ← member state ('"' :: text)
          members member steps false state rest
      | .item other => throw ⟨.malformed, other⟩

/-- Reads the name of a member. -/
def memberName : Scan String
  | '"' :: rest => stringTail [] rest
  | other => refuse other

/-- Reads a name that is an integer between two bounds, in digits. -/
def memberNumber (least most : Int) : Scan Int
  | '"' :: '-' :: rest => do
      let (value, rest) ← number true rest
      closing (← value.within least most rest)
  | '"' :: c :: rest =>
      if c.isDigit then do
        let (value, rest) ← number false (c :: rest)
        closing (← value.within least most rest)
      else throw ⟨.malformed, c :: rest⟩
  | other => throw ⟨.malformed, other⟩
where
  /-- The closing quote follows the digits at once. -/
  closing : Int × List Char → Except Stop (Int × List Char)
    | (value, '"' :: rest) => return (value, rest)
    | (_, other) => throw ⟨.malformed, other⟩

/-- Reads an object whose members have values of one shape, in the order of the text. -/
def entries {κ ν : Type} (name : Scan κ) (read : Reader ν) : Reader (List (κ × ν)) :=
  fun allowance text =>
    match skipBlanks text with
    | '{' :: rest =>
        match allowance with
        | 0 => throw ⟨.malformed, '{' :: rest⟩
        | inner + 1 => do
            let member (found : List (κ × ν)) : Scan (List (κ × ν)) := fun text => do
              let (key, rest) ← name text
              let (value, rest) ← read inner (← colon rest)
              return ((key, value) :: found, rest)
            let (found, rest) ← members member (rest.length + 1) true [] rest
            return (found.reverse, rest)
    | other => refuse other

/-! ## Values nobody asked for -/

/-- Passes over a number from behind its sign. One that breaks off is no number. -/
def skipNumber (text : List Char) : Except Stop (List Char) :=
  match number false text with
  | .ok (_, rest) => .ok rest
  | .error stop => .error ⟨.malformed, stop.ahead⟩

/-- What is expected next while a value is passed over. -/
inductive Expecting where
  /-- A value. -/
  | value
  /-- The first item of the innermost container, or its end. -/
  | first
  /-- What may follow a value. -/
  | after

/-- Passes over a value. The closing brackets that are still owed stand in `owed`, the innermost
first. Every second step takes a character, so twice the length of the text bounds their number. -/
def skipSteps : Nat → Expecting → List Char → List Char → Except Stop (List Char)
  | 0, _, _, text => throw ⟨.truncated, text⟩
  | _ + 1, .after, [], text => return text
  | steps + 1, expecting, owed, text =>
      match expecting, skipBlanks text with
      | _, [] => throw ⟨.truncated, []⟩
      | .value, 'n' :: rest => do skipSteps steps .after owed (← word ['u', 'l', 'l'] rest)
      | .value, 't' :: rest => do skipSteps steps .after owed (← word ['r', 'u', 'e'] rest)
      | .value, 'f' :: rest => do skipSteps steps .after owed (← word ['a', 'l', 's', 'e'] rest)
      | .value, '"' :: rest => do skipSteps steps .after owed (← skipString rest)
      | .value, '[' :: rest => skipSteps steps .first (']' :: owed) rest
      | .value, '{' :: rest => skipSteps steps .first ('}' :: owed) rest
      | .value, '-' :: rest => do skipSteps steps .after owed (← skipNumber rest)
      | .value, c :: rest =>
          if c.isDigit then do skipSteps steps .after owed (← skipNumber (c :: rest))
          else throw ⟨.malformed, c :: rest⟩
      | .first, c :: rest =>
          match owed with
          | close :: outer =>
              if c = close then skipSteps steps .after outer rest
              else do skipSteps steps .value owed (← itemValue close (c :: rest))
          | [] => throw ⟨.malformed, c :: rest⟩
      | .after, c :: rest =>
          match owed with
          | close :: outer =>
              if c = close then skipSteps steps .after outer rest
              else if c = ',' then do skipSteps steps .value owed (← itemValue close rest)
              else throw ⟨.malformed, c :: rest⟩
          | [] => throw ⟨.malformed, c :: rest⟩
where
  /-- Passes over the name and the colon if the item belongs to an object. -/
  itemValue (close : Char) (text : List Char) : Except Stop (List Char) :=
    if close = '}' then
      match skipBlanks text with
      | [] => throw ⟨.truncated, []⟩
      | '"' :: rest => do colon (← skipString rest)
      | other => throw ⟨.malformed, other⟩
    else return text

/-- Passes over one value. -/
def skip : List Char → Except Stop (List Char) := fun text =>
  skipSteps (2 * text.length + 2) .value [] text

/-- Reads a value of any shape as its text. -/
def verbatim : Reader (List Char) := fun _ text => do
  let start := skipBlanks text
  let rest ← skip start
  return (start.take (start.length - rest.length), rest)

/-! ## Whole texts -/

/-- How many containers may be nested in each other. -/
def nestingLimit : Nat := 127

/-- Reads a text that holds one value and nothing else. -/
def Reader.whole {α : Type} (read : Reader α) (text : List Char) : Except Stop α := do
  let (value, rest) ← read nestingLimit text
  match skipBlanks rest with
  | [] => return value
  | other => throw ⟨.malformed, other⟩

end GotoFree.Json
