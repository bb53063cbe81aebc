import GotoFree.Target.Stmt

/-!
# The two representations of objects

In the mutable model an object is a tuple of reference cells, one for each slot, and a field is
written by writing its cell. In the functional model an object is a plain tuple; a write makes a
new tuple and stores it into the variable that owns the object, which must therefore be a cell.
-/

namespace GotoFree

open Target (Pattern Stmt Script Step)

/-- How objects are represented. -/
inductive ObjectModel where
  | mutable
  | functional
deriving DecidableEq, Inhabited

/-- The name of a model in settings and answers. -/
def ObjectModel.name : ObjectModel → String
  | .mutable => "mutable"
  | .functional => "functional"

/-- The model of a name. -/
def ObjectModel.ofName? : String → Option ObjectModel
  | "mutable" => some .mutable
  | "functional" => some .functional
  | _ => none

/-- A slot of an object that is about to be accessed. -/
structure Handle where
  /-- The object as a tuple, never a cell that holds one. -/
  base : Target.Expr
  slot : Nat
  width : Nat
  /-- The name that the slot gets. -/
  cell : String

/-- The variable that an object was loaded from. -/
structure Owner where
  name : String
  /-- Whether the variable is a cell. -/
  isCell : Bool
deriving DecidableEq

/-- Why a field cannot be written. -/
inductive WriteFault where
  /-- The new object has no cell to go into. -/
  | fixedOwner (name : String)
  | slotOutsideObject
deriving DecidableEq

/-- The pattern that names the slot and passes over the other ones. -/
def Handle.pattern (handle : Handle) : Pattern :=
  .tuple ((List.range handle.width).map fun index =>
    if index = handle.slot then some handle.cell else none)

namespace ObjectModel

/-- A new object of a tag with its fields. -/
def allocate (model : ObjectModel) (tag : Int) (fields : List Target.Expr) : Target.Expr :=
  match model with
  | .mutable => .tuple ((Target.Expr.int tag :: fields).map Target.Expr.mkRef)
  | .functional => .tuple (.int tag :: fields)

/-- The steps that name a slot, and the expression of its content. -/
def read (model : ObjectModel) (handle : Handle) : Script × Target.Expr :=
  ([.bind handle.pattern handle.base],
    match model with
    | .mutable => .contentOf handle.cell
    | .functional => .var handle.cell)

/-- The names that a write in the functional model gives to all slots. -/
def slotNames (handle : Handle) : List String :=
  (List.range handle.width).map fun index => handle.cell ++ "_" ++ toString index

/-- The steps that store a value into a slot. -/
def write (model : ObjectModel) (handle : Handle) (owner : Owner) (value : Target.Expr) :
    Except WriteFault Script :=
  match model with
  | .mutable =>
      return [.bind handle.pattern handle.base, Script.assign handle.cell value]
  | .functional =>
      if !owner.isCell then throw (.fixedOwner owner.name)
      else if handle.width ≤ handle.slot then throw .slotOutsideObject
      else
        let names := slotNames handle
        return [.bind (.tuple (names.map some)) handle.base,
          Script.assign owner.name (.tuple ((names.map Target.Expr.var).set handle.slot value))]

/-- The path from the value of a path to one of its slots. -/
def pathToSlot (model : ObjectModel) (path : Target.Expr) (slot : Nat) : Target.Expr :=
  match model with
  | .mutable => .deref (.proj path slot)
  | .functional => .proj path slot

/-- The statements that tie the names of an access to the object again once it is over. -/
def tieAgain (model : ObjectModel) (handle : Handle) (owner : Owner) : List Stmt :=
  match model with
  | .mutable =>
      .aliased (.var handle.cell) (.proj handle.base handle.slot) ::
        if owner.isCell then [.aliased handle.base (.contentOf owner.name)] else []
  | .functional => []

end ObjectModel

/-- What is wrong with a write that the program is to blame for. -/
def WriteFault.message : WriteFault → String
  | .fixedOwner name => "field write through the immutable binding " ++ name
  | .slotOutsideObject => "field write outside of the object"

end GotoFree
