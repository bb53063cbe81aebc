import GotoFree.CommandLine.Arguments
import GotoFree.CommandLine.Config
import GotoFree.Program.Method

/-!
# Settings

What a run needs to know: the arguments of the command line, completed by the configuration file
that they name.
-/

namespace GotoFree

/-- The settings of a run. -/
structure Settings where
  model : ObjectModel
  /-- Where the program goes; without it, to standard output. -/
  output : Option String
  /-- Where the tables of flags and tags go. -/
  flags : Option String
  /-- The entry method in place of the program's own. -/
  entry : Option MethodId
deriving DecidableEq

/-- Why there are no settings. -/
inductive SettingsFault where
  | unreadable (path : String)
  | malformed (path : String)
deriving DecidableEq

/-- The fault as the user sees it. -/
def SettingsFault.message : SettingsFault → String
  | .unreadable path => "failed to read config file " ++ path
  | .malformed path => "failed to parse config file " ++ path

namespace Settings

/-- What the arguments leave open is taken from the file; objects are mutable if neither says
otherwise. -/
def merge (arguments : Arguments) (config : Config) : Settings where
  model := (arguments.model <|> config.model).getD .mutable
  output := arguments.output <|> config.output
  flags := arguments.flags <|> config.flags
  entry := (arguments.entry <|> config.entry).map MethodId.mk

/-- The configuration at a path, given the text of the file if it can be read. -/
def configOf (path : String) (text : Option String) : Except SettingsFault Config :=
  match text with
  | none => throw (.unreadable path)
  | some text =>
      match Config.parse text with
      | some config => return config
      | none => throw (.malformed path)

/-- The settings of some arguments, given how files are read. -/
def resolve {m : Type → Type} [Monad m] (readFile : String → m (Option String))
    (arguments : Arguments) : m (Except SettingsFault Settings) := do
  match arguments.config with
  | none => return .ok (merge arguments .empty)
  | some path =>
      let text ← readFile path
      return (configOf path text).map (merge arguments)

end Settings

end GotoFree
