import GotoFree.Json.Reader

/-!
# Records and variants

A record is an object with fixed members, of which some may be absent; it may also be written as
an array of its members in their order. A variant is one of several named forms: a form without
content is its name, and a form with content is an object whose only member bears the name.
-/

namespace GotoFree.Json

/-- The members of a record in their order, with the types of their values. -/
inductive Fields : List Type → Type 1 where
  | done : Fields []
  /-- A member with the value it takes when it is absent, if it may be absent. -/
  | member {α : Type} {types : List Type} (name : String) (absent : Option α) (read : Reader α)
      (rest : Fields types) : Fields (α :: types)

/-- A member that has to be there. -/
def required {α : Type} {types : List Type} (name : String) (read : Reader α)
    (rest : Fields types) : Fields (α :: types) :=
  .member name none read rest

/-- A member that may be absent. -/
def optional {α : Type} {types : List Type} (name : String) (absent : α) (read : Reader α)
    (rest : Fields types) : Fields (α :: types) :=
  .member name (some absent) read rest

/-- One value of each type. -/
@[reducible] def Record : List Type → Type
  | [] => Unit
  | α :: types => α × Record types

/-- The values of a record found so far. -/
@[reducible] def Draft : List Type → Type
  | [] => Unit
  | α :: types => Option α × Draft types

/-- A draft without values. -/
def Draft.blank : (types : List Type) → Draft types
  | [] => ()
  | _ :: types => (none, blank types)

namespace Fields

/-- Reads the member of a name, from behind the name, into a draft; none if the record has no such
member. A member that is there twice is refused. -/
def scan? {types : List Type} (fields : Fields types) (allowance : Nat) (name : String)
    (draft : Draft types) : Option (Scan (Draft types)) :=
  match types, fields with
  | _, .done => none
  | _, .member own _ read rest =>
      if own = name then
        some fun text =>
          if draft.1.isSome then throw ⟨.mismatched, text⟩
          else do
            let (value, text) ← read allowance (← colon text)
            return ((some value, draft.2), text)
      else
        (rest.scan? allowance name draft.2).map fun scan text => do
          let (others, text) ← scan text
          return ((draft.1, others), text)

/-- Reads one member of an object into a draft; members that the record does not have are passed
over. -/
def scan {types : List Type} (fields : Fields types) (allowance : Nat) (draft : Draft types) :
    Scan (Draft types) := fun text => do
  let (name, rest) ← memberName text
  match fields.scan? allowance name draft with
  | some scan => scan rest
  | none => return (draft, ← skip (← colon rest))

/-- Reads the members in their order from an array, up to the end of the array at most. -/
def scanItems {types : List Type} (fields : Fields types) (allowance : Nat) (first : Bool) :
    Scan (Draft types) := fun text =>
  match types, fields with
  | _, .done => return ((), text)
  | _ :: types, .member _ _ read rest => do
      match ← nextItem ']' first text with
      | .over _ => return (Draft.blank (_ :: types), text)
      | .item text =>
          let (value, text) ← read allowance text
          let (others, text) ← rest.scanItems allowance false text
          return ((some value, others), text)

/-- The record of a draft; none if a member is absent that has to be there. -/
def complete {types : List Type} (fields : Fields types) (draft : Draft types) :
    Option (Record types) :=
  match types, fields with
  | _, .done => some ()
  | _, .member _ absent _ rest =>
      match draft.1 <|> absent, rest.complete draft.2 with
      | some value, some others => some (value, others)
      | _, _ => none

end Fields

/-- Reads the end of an array in which no item is left to read. -/
def arrayEnd (text : List Char) : Except Stop (List Char) :=
  match skipBlanks text with
  | [] => throw ⟨.truncated, []⟩
  | ']' :: rest => return rest
  | other => throw ⟨.malformed, other⟩

/-- Reads a record and builds a value from it. -/
def record {α : Type} {types : List Type} (fields : Fields types) (build : Record types → α) :
    Reader α := fun allowance text =>
  match skipBlanks text, allowance with
  | '[' :: rest, 0 => throw ⟨.malformed, '[' :: rest⟩
  | '{' :: rest, 0 => throw ⟨.malformed, '{' :: rest⟩
  | '[' :: rest, inner + 1 => do
      let (draft, rest) ← fields.scanItems inner true rest
      match fields.complete draft with
      | some values => return (build values, ← arrayEnd rest)
      | none => throw ⟨.mismatched, rest⟩
  | '{' :: rest, inner + 1 => do
      let (draft, rest) ← members (fields.scan inner) (rest.length + 1) true (.blank types) rest
      match fields.complete draft with
      | some values => return (build values, rest)
      | none => throw ⟨.mismatched, rest⟩
  | other, _ => refuse other

/-- A form of a variant. -/
inductive Form (α : Type) where
  /-- A form without content. -/
  | plain (value : α)
  /-- A form with content. -/
  | tagged (read : Reader α)

/-- Reads a variant whose forms are found by their names. The object of a form has no member
besides it. -/
def variant {α : Type} (form? : String → Option (Form α)) : Reader α := fun allowance text =>
  match skipBlanks text with
  | [] => throw ⟨.truncated, []⟩
  | '"' :: rest => do
      let (name, rest) ← stringTail [] rest
      match form? name with
      | some (.plain value) => return (value, rest)
      | some (.tagged _) | none => throw ⟨.mismatched, rest⟩
  | '{' :: rest =>
      match allowance with
      | 0 => throw ⟨.malformed, '{' :: rest⟩
      | inner + 1 => do
          let (name, rest) ← memberName (skipBlanks rest)
          match form? name with
          | none => throw ⟨.mismatched, rest⟩
          | some (.plain value) => do
              let (_, rest) ← null inner (← colon rest)
              return (value, ← objectEnd rest)
          | some (.tagged read) => do
              let (value, rest) ← read inner (← colon rest)
              return (value, ← objectEnd rest)
  | other => throw ⟨.malformed, other⟩
where
  /-- Reads the end of an object in which no member is left to read. -/
  objectEnd (text : List Char) : Except Stop (List Char) :=
    match skipBlanks text with
    | [] => throw ⟨.truncated, []⟩
    | '}' :: rest => return rest
    | other => throw ⟨.malformed, other⟩

/-- Reads a variant whose forms have no content. -/
def choice {α : Type} (values : List (String × α)) : Reader α :=
  variant fun name => (values.lookup name).map .plain

end GotoFree.Json
