import GotoFree.Lowering.Call
import GotoFree.Lowering.Field

/-!
# Instructions

Each instruction becomes the steps that compute its value, the step that uses the value, and the
statements for after it.
-/

namespace GotoFree

open Target (Script Stmt)

namespace Job

/-- The value of an expression. -/
def expr (job : Job) (scope : Scope) (instr : Instr) : Expr → Lower Computed
  | .use operand => return .pure (← job.operand scope operand)
  | .binary op left right =>
      return .pure (.binary op.toTarget (← job.operand scope left) (← job.operand scope right))
  | .unary op operand => return .pure (.unary op.toTarget (← job.operand scope operand))
  | .fieldRead base field possibleTypes => job.fieldValue scope base field possibleTypes instr
  | .arrayRead base index =>
      return .pure (.index (← job.valueOf scope base) (← job.operand scope index))
  | .arrayLength base => return .pure (.length (← job.valueOf scope base))
  | .new className => return .pure (← job.allocate className instr)
  | .newArray _ size => return .pure (.mkArray (← job.operand scope size))
  | .call site => do
      match ← job.call scope site instr with
      | some computed => return computed
      | none => Lower.reject (.internal
          (job.siteText instr ++ " was dropped but its value is used"))
  | .nondet => return .pure .nondet
  -- References carry no type at run time, so casting them changes nothing.
  | .cast operand type =>
      if type.isReference then return .pure (← job.operand scope operand)
      else Lower.reject (job.unsupported "primitive cast" instr
        [job.operandTypeText operand, type.text])
  | .unmodelled _ operandTypes =>
      Lower.reject (job.unsupported "expression" instr (operandTypes.map Ty.text))

/-- Stores a value into a place, and the scope and the statements for after that. -/
def assign (job : Job) (scope : Scope) (instr : Instr) (value : Target.Expr) :
    Place → Lower (Script × Scope × List Stmt)
  | .var name => do
      let (steps, scope) ← job.store scope name value
      return (steps, scope, [])
  | .field base field possibleTypes => do
      let (steps, after) ← job.storeField scope base field possibleTypes value instr
      return (steps, scope, after)
  | .arrayElement base index => do
      let array ← job.valueOf scope base
      let position ← job.operand scope index
      return ([.stmt (.arrayStore array position value)], scope, [])

/-- The argument that an identity instruction copies. -/
def nameOfSource (job : Job) (source : Source) (instr : Instr) : Lower String :=
  if job.method.hasSource source then
    match job.method.incoming.find? fun param => param.source = source with
    | some param => return param.name
    | none => throw (.defect .parameterWithoutArgument)
  else Lower.reject (.malformed (job.siteText instr ++ " names a missing parameter"))

/-- An instruction that neither copies an argument nor ends a block, and the scope after it. -/
def plainInstr (job : Job) (scope : Scope) (instr : Instr) : Lower (Script × Scope) :=
  match instr with
  | .assign target value => do
      let computed ← job.expr scope instr value
      let (steps, scope, after) ← job.assign scope instr computed.value target
      return (computed.before ++ steps ++ Script.ofStmts (computed.after ++ after), scope)
  | .call site => do
      match ← job.call scope site instr with
      | some computed =>
          return (computed.before ++ [.stmt (.expr computed.value)] ++
            Script.ofStmts computed.after, scope)
      | none => return ([], scope)
  | .nop true => return ([.stmt .assertFalse], scope)
  | .nop false => return ([], scope)
  | .throw value => Lower.reject (job.unsupported "exception" instr [job.operandTypeText value])
  | .aliased left right => do
      let left ← job.followPath scope left instr
      let right ← job.followPath scope right instr
      return ([.stmt (.aliased left right)], scope)
  | .identity .. | .branch _ | .goto | .ret _ =>
      Lower.reject (.internal (job.siteText instr ++ " reached the instruction translator"))

end Job

end GotoFree
