import GotoFree.Flow.Flags
import GotoFree.Lowering.Agenda
import GotoFree.Lowering.Scope
import GotoFree.Storage.Bindings
import GotoFree.Storage.Layout
import GotoFree.Storage.ObjectModel
import GotoFree.Target.Program

/-!
# The state of lowering

Lowering goes through a program once. A `Job` is all that is fixed while one method is lowered; a
`Progress` is what grows: names and numbers handed out, functions made beside the method's own, and
warnings. Steps that only read are functions into `Except Rejection`; the others are actions of
`Lower`.
-/

namespace GotoFree

/-- What all methods of a program share. -/
structure Setting where
  program : Program
  layout : Layout
  model : ObjectModel

/-- An argument of a function that is made from a method. -/
structure Param where
  /-- What the argument is to the method. -/
  source : Source
  name : String
  /-- The local that the method copies the argument into. -/
  target : Option String
  type : Ty
deriving DecidableEq

/-- A method while it is lowered. -/
structure Job where
  setting : Setting
  id : MethodId
  method : Method
  /-- The name of the method's function. -/
  function : String
  plan : BindingPlan
  flags : Flags

/-- Whether a method has a receiver or a parameter that an identity instruction may copy. -/
def Method.hasSource (method : Method) : Source → Bool
  | .this => !method.isStatic
  | .param index => index.toNat < method.params.length

/-- The argument that stands for a source, named after the local it is copied into. -/
def Method.paramAt (method : Method) (source : Source) (type : Ty) : Param :=
  let target := method.argumentLocals.get? source
  let name := match source, target with
    | .this, _ => "__this"
    | .param _, some target => "__in_" ++ target
    | .param index, none => "__arg" ++ toString index.toNat
  ⟨source, name, target, type⟩

/-- The arguments of a method's function: the receiver of an instance method, then the
parameters. -/
def Method.incoming (method : Method) : List Param :=
  (if method.isStatic then [] else [method.paramAt .this (.ref method.className)]) ++
    method.params.zipIdx.map fun (type, index) => method.paramAt (.param index.toUInt64) type

/-- The names of the arguments of a method's function. -/
def Method.incomingNames (method : Method) : List String := method.incoming.map Param.name

/-- What lowering has brought about so far. -/
structure Progress where
  agenda : Agenda
  /-- The coordinates of the method that are recorded, in the order of their flags. -/
  recorded : Numbering Coord
  /-- The functions made for loops and dispatch in the method. -/
  helpers : List Target.Function
  /-- The temporaries of the instruction. -/
  temporaries : Temporaries
  warnings : List String

/-- The progress before anything is done. -/
def Progress.start : Progress := ⟨.empty, .empty, [], .ofUnit 0, []⟩

/-- A step of lowering. -/
abbrev Lower := StateT Progress (Except Failure)

namespace Lower

/-- A check as a step. -/
def check {α : Type} : Except Rejection α → Lower α
  | .ok value => return value
  | .error reason => throw (.rejected reason)

/-- A step that relies on earlier ones. -/
def rely {α : Type} : Except Defect α → Lower α
  | .ok value => return value
  | .error defect => throw (.defect defect)

instance : MonadLift (Except Rejection) Lower := ⟨check⟩
instance : MonadLift (Except Defect) Lower := ⟨rely⟩

/-- Gives up on the program. -/
def reject {α : Type} (reason : Rejection) : Lower α := throw (.rejected reason)

/-- The name of a method's function. A method that is named for the first time will be lowered. -/
def request (id : MethodId) (method : Method) : Lower String := do
  let progress ← get
  let (name, agenda) := progress.agenda.request id method.className method.name
  set { progress with agenda }
  return name

/-- Starts an instruction: its temporaries are told apart by its number. -/
def enter (spot : Spot) : Lower Unit := do
  let progress ← get
  let (unit, agenda) := progress.agenda.unit spot
  set { progress with agenda, temporaries := .ofUnit unit }

/-- A new temporary of the instruction. -/
def fresh (stem : String) : Lower String := do
  let progress ← get
  let (name, temporaries) := progress.temporaries.fresh stem
  set { progress with temporaries }
  return name

/-- The flag of a coordinate, counted from 1 in the order of first use. -/
def flag (coord : Coord) : Lower Int := do
  let progress ← get
  let (index, recorded) := progress.recorded.number coord
  set { progress with recorded }
  return index + 1

/-- Adds a function beside the method's own. -/
def addHelper (function : Target.Function) : Lower Unit :=
  modify fun progress => { progress with helpers := progress.helpers ++ [function] }

/-- Adds a warning. -/
def warn (warning : String) : Lower Unit :=
  modify fun progress => { progress with warnings := progress.warnings ++ [warning] }

end Lower

end GotoFree
