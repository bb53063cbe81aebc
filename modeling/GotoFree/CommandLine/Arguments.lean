import GotoFree.Storage.ObjectModel

/-!
# Command line arguments

An option is named by a word after two dashes or by a letter after one. Its value follows as the
next argument, after an equals sign, or right after the letter; letters of options without a value
may stand together. Each option may be given once. What is wrong with an option is found when the
next one begins, so an argument that is no option at all is complained about first.
-/

namespace GotoFree

/-- What is wrong with the arguments. -/
inductive ArgumentFault where
  /-- A value is missing or is not among those the option takes. -/
  | invalidValue
  | unknownArgument
  /-- An option is given twice. -/
  | argumentConflict
  /-- An option that takes no value has one. -/
  | tooManyValues
  | missingInput
  /-- The user asks for help. -/
  | displayHelp
deriving DecidableEq

/-- The name of a fault. -/
def ArgumentFault.kind : ArgumentFault → String
  | .invalidValue => "InvalidValue"
  | .unknownArgument => "UnknownArgument"
  | .argumentConflict => "ArgumentConflict"
  | .tooManyValues => "TooManyValues"
  | .missingInput => "MissingRequiredArgument"
  | .displayHelp => "DisplayHelp"

/-- An option, or the input that stands among them without a name. -/
inductive Switch where
  | input | output | flags | model | entry | config | verbose | help
deriving DecidableEq

namespace Switch

/-- The option of a word. -/
def ofWord? : String → Option Switch
  | "output" => some .output
  | "flags" => some .flags
  | "model" => some .model
  | "entry" => some .entry
  | "config" => some .config
  | "verbose" => some .verbose
  | "help" => some .help
  | _ => none

/-- The option of a letter. -/
def ofLetter? : Char → Option Switch
  | 'o' => some .output
  | 'f' => some .flags
  | 'm' => some .model
  | 'c' => some .config
  | 'v' => some .verbose
  | 'h' => some .help
  | _ => none

/-- Whether the option has a value. -/
def takesValue : Switch → Bool
  | verbose | help => false
  | input | output | flags | model | entry | config => true

end Switch

/-- What the arguments say. -/
structure Arguments where
  input : Option String
  output : Option String
  flags : Option String
  model : Option ObjectModel
  entry : Option String
  config : Option String
  verbose : Bool
deriving DecidableEq

namespace Arguments

/-- No arguments. -/
def none : Arguments := ⟨.none, .none, .none, .none, .none, .none, false⟩

/-- A path is not empty. -/
def pathValue (value : String) : Except ArgumentFault String :=
  if value.isEmpty then throw .invalidValue else return value

/-- A model is given by its name. -/
def modelValue (value : String) : Except ArgumentFault ObjectModel :=
  match ObjectModel.ofName? value with
  | some model => return model
  | .none => throw .invalidValue

/-- A value for an option that has none yet. -/
def once {α : Type} (old : Option α) (new : Except ArgumentFault α) :
    Except ArgumentFault (Option α) :=
  match old with
  | some _ => throw .argumentConflict
  | .none => do return some (← new)

/-- Takes an option with its value into account. -/
def put (arguments : Arguments) (switch : Switch) (value : Option String) :
    Except ArgumentFault Arguments :=
  match switch, value with
  | .help, _ => throw .displayHelp
  | .verbose, _ =>
      if arguments.verbose then throw .argumentConflict
      else return { arguments with verbose := true }
  | _, .none => throw .invalidValue
  | .input, some value => do
      return { arguments with input := ← once arguments.input (pathValue value) }
  | .output, some value => do
      return { arguments with output := ← once arguments.output (pathValue value) }
  | .flags, some value => do
      return { arguments with flags := ← once arguments.flags (pathValue value) }
  | .config, some value => do
      return { arguments with config := ← once arguments.config (pathValue value) }
  | .model, some value => do
      return { arguments with model := ← once arguments.model (modelValue value) }
  | .entry, some value => do
      return { arguments with entry := ← once arguments.entry (pure value) }

end Arguments

/-! ## Reading -/

/-- How far the arguments have been read. -/
structure ArgumentReading where
  done : Arguments
  /-- The option that was named last, and its value once it has come. -/
  pending : Option (Switch × Option String)
  /-- Whether an argument without a name may still come. -/
  awaitsInput : Bool
  /-- Whether names of options are over. -/
  namesOver : Bool

namespace ArgumentReading

/-- Takes the option that was named last into account. -/
def settle (reading : ArgumentReading) : Except ArgumentFault ArgumentReading :=
  match reading.pending with
  | some (switch, value) => do
      return { reading with done := ← reading.done.put switch value, pending := none }
  | none => return reading

/-- Takes an option into account that is complete. -/
def put (reading : ArgumentReading) (switch : Switch) (value : Option String) :
    Except ArgumentFault ArgumentReading := do
  let settled ← reading.settle
  return { settled with done := ← settled.done.put switch value }

/-- Begins an option. -/
def begin (reading : ArgumentReading) (switch : Switch) (value : Option String) :
    Except ArgumentFault ArgumentReading := do
  return { ← reading.settle with pending := some (switch, value) }

/-- Reads the letters after a dash. -/
def letters (reading : ArgumentReading) : List Char → Except ArgumentFault ArgumentReading
  | [] => return reading
  | letter :: rest =>
      match Switch.ofLetter? letter with
      | none => throw .unknownArgument
      | some switch =>
          if switch.takesValue then
            match rest with
            | [] => reading.begin switch none
            | '=' :: value => reading.put switch (some (String.ofList value))
            | value => reading.put switch (some (String.ofList value))
          else do letters (← reading.put switch none) rest

/-- Reads the word after two dashes, with the text after its equals sign. -/
def word (reading : ArgumentReading) (name : String) (value : Option String) :
    Except ArgumentFault ArgumentReading :=
  match Switch.ofWord? name with
  | none => throw .unknownArgument
  | some switch =>
      if switch.takesValue then
        match value with
        | some value => reading.put switch (some value)
        | none => reading.begin switch none
      else if value.isSome then throw .tooManyValues
      else reading.put switch none

/-- Reads an argument without a name. -/
def plain (reading : ArgumentReading) (text : String) :
    Except ArgumentFault ArgumentReading := do
  if reading.awaitsInput then
    return { ← reading.begin .input (some text) with awaitsInput := false }
  else throw .unknownArgument

/-- Reads an argument that is not the name of an option: the value that was expected, or one
without a name. -/
def value (reading : ArgumentReading) (text : String) :
    Except ArgumentFault ArgumentReading :=
  match reading.pending with
  | some (switch, none) => return { reading with pending := some (switch, some text) }
  | _ => reading.plain text

/-- Reads an argument. -/
def argument (reading : ArgumentReading) (text : String) :
    Except ArgumentFault ArgumentReading :=
  if reading.namesOver then reading.plain text
  else match text.toList with
    | ['-', '-'] => return { reading with namesOver := true }
    | '-' :: '-' :: rest =>
        let name := rest.takeWhile (· ≠ '=')
        let after := match rest.drop name.length with
          | [] => none
          | _ :: value => some (String.ofList value)
        reading.word (String.ofList name) after
    | '-' :: letter :: rest => reading.letters (letter :: rest)
    | _ => reading.value text

end ArgumentReading

namespace Arguments

/-- Reads options, and the input among them if there is to be one. -/
def parse (takesInput : Bool) (texts : List String) : Except ArgumentFault Arguments := do
  let start : ArgumentReading := ⟨none, .none, takesInput, false⟩
  let reading ← texts.foldlM ArgumentReading.argument start
  let settled ← reading.settle
  if settled.awaitsInput then throw .missingInput
  else return settled.done

end Arguments

end GotoFree
