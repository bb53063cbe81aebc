import GotoFree.Lowering.Value

/-!
# Field accesses and allocations

An access first makes sure that the object is a tuple: the content of a cell is named before its
slots are. After the access the names are tied to the object again.
-/

namespace GotoFree

open Target (Script Stmt)

/-- A field access that is about to be made. -/
structure Access where
  before : Script
  handle : Handle
  owner : Owner

namespace Job

/-- The slot of a field. -/
def slotOf (job : Job) (field : FieldRef) (possibleTypes : SortedSet String) (instr : Instr) :
    Except Rejection FieldSlot :=
  match job.setting.layout.commonPlace field possibleTypes with
  | .ok place => return place
  | .error error =>
      throw (job.unsupported ("field access (" ++ error.message ++ ")") instr error.classes)

/-- Opens an access to a field of the object that a local holds. -/
def openField (job : Job) (scope : Scope) (base : String) (field : FieldRef)
    (possibleTypes : SortedSet String) (instr : Instr) : Lower Access := do
  let place ← job.slotOf field possibleTypes instr
  let binding ← job.bindingOf scope base
  let owner : Owner := ⟨base, binding = .mutable⟩
  match binding with
  | .mutable =>
      let object ← Lower.fresh "__base_ptr"
      let cell ← Lower.fresh "__field"
      return ⟨[Script.bindName object (.contentOf base)],
        ⟨.var object, place.slot, place.width, cell⟩, owner⟩
  | .const =>
      let cell ← Lower.fresh "__field"
      return ⟨[], ⟨.var base, place.slot, place.width, cell⟩, owner⟩

/-- The value of a field. -/
def fieldValue (job : Job) (scope : Scope) (base : String) (field : FieldRef)
    (possibleTypes : SortedSet String) (instr : Instr) : Lower Computed := do
  let access ← job.openField scope base field possibleTypes instr
  let (steps, value) := job.setting.model.read access.handle
  return ⟨access.before ++ steps, value, job.setting.model.tieAgain access.handle access.owner⟩

/-- Stores a value into a field; the statements are for after the access. -/
def storeField (job : Job) (scope : Scope) (base : String) (field : FieldRef)
    (possibleTypes : SortedSet String) (value : Target.Expr) (instr : Instr) :
    Lower (Script × List Stmt) := do
  let access ← job.openField scope base field possibleTypes instr
  match job.setting.model.write access.handle access.owner value with
  | .ok steps =>
      return (access.before ++ steps, job.setting.model.tieAgain access.handle access.owner)
  | .error .slotOutsideObject => throw (.defect .slotOutsideObject)
  | .error reason => Lower.reject (job.unsupported reason.message instr [])

/-- A new object of a class, each field with the value its type starts with. -/
def allocate (job : Job) (className : String) (instr : Instr) : Except Rejection Target.Expr :=
  match job.setting.layout.tag? className, job.setting.layout.slotTypes? className with
  | some tag, some types =>
      return job.setting.model.allocate tag (types.map fun type => type.elim (.int 0) Ty.default)
  | _, _ => throw (job.unsupported "allocation of an unknown class" instr [])

/-- The value at the end of a path of fields. -/
def followPath (job : Job) (scope : Scope) (path : AccessPath) (instr : Instr) :
    Except Rejection Target.Expr := do
  let start ← job.valueOf scope path.base
  path.fields.foldlM (fun value field => do
    let place ← job.slotOf field .empty instr
    return job.setting.model.pathToSlot value place.slot) start

end Job

end GotoFree
