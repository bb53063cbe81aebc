import GotoFree.Lowering.Progress

/-!
# Values of locals and operands

A local is read through its binding: a cell by its content, a fixed name by itself. Its first value
makes the binding where the plan has left it open.
-/

namespace GotoFree

open Target (Script Step Stmt)

/-- The value that a cell or a slot of a type starts with. -/
def Ty.default : Ty → Target.Expr
  | .int => .int 0
  | .bool => .bool false
  | .ref _ | .array _ => .null
  | .void => .unit

/-- The operator of the structured language for an operator. -/
def BinOp.toTarget : BinOp → Target.BinOp
  | .add => .add
  | .sub => .sub
  | .mul => .mul
  | .div => .div
  | .rem => .rem
  | .eq => .eq
  | .ne => .ne
  | .lt => .lt
  | .le => .le
  | .gt => .gt
  | .ge => .ge
  | .and => .and
  | .or => .or

/-- The operator of the structured language for an operator. -/
def UnOp.toTarget : UnOp → Target.UnOp
  | .neg => .neg
  | .not => .not

/-- The reading of a local. -/
def Binding.valueOf (binding : Binding) (name : String) : Target.Expr :=
  match binding with
  | .mutable => .contentOf name
  | .const => .var name

/-- The step that introduces a local with its first value. -/
def Binding.introduce (binding : Binding) (name : String) (value : Target.Expr) : Step :=
  match binding with
  | .mutable => Script.bindCell name value
  | .const => Script.bindName name value

/-- A value with what has to be done before and after it is used. -/
structure Computed where
  before : Script
  value : Target.Expr
  after : List Stmt

/-- A value that is there already. -/
def Computed.pure (value : Target.Expr) : Computed := ⟨[], value, []⟩

namespace Job

/-- A construct that has no counterpart. -/
def unsupported (job : Job) (construct : String) (instr : Instr)
    (operandTypes : List String) : Rejection :=
  .unsupported job.id construct instr.text operandTypes

/-- The declared type of a local. -/
def localType (job : Job) (name : String) : Except Rejection Ty :=
  match job.method.localType? name with
  | some type => return type
  | none => throw (.malformed ("local " ++ name ++ " of " ++ job.id.text ++ " is not declared"))

/-- The binding of a local that is read. -/
def bindingOf (job : Job) (scope : Scope) (name : String) : Except Rejection Binding :=
  match scope.binding? name with
  | some binding => return binding
  | none => throw (.malformed
      ("local " ++ name ++ " of " ++ job.id.text ++ " is read outside the scope of its binding"))

/-- The value of a local. -/
def valueOf (job : Job) (scope : Scope) (name : String) : Except Rejection Target.Expr := do
  return (← job.bindingOf scope name).valueOf name

/-- The value of an operand. -/
def operand (job : Job) (scope : Scope) : Operand → Except Rejection Target.Expr
  | .var name => job.valueOf scope name
  | .int value => return .int value.toInt
  | .bool value => return .bool value
  | .null => return .null

/-- The type of an operand as messages show it. -/
def operandTypeText (job : Job) : Operand → String
  | .var name => ((job.method.localType? name).map Ty.text).getD "?"
  | .int _ => Ty.int.text
  | .bool _ => Ty.bool.text
  | .null => "null"

/-- Stores a value into a local, and the scope after that. -/
def store (job : Job) (scope : Scope) (name : String) (value : Target.Expr) :
    Except Rejection (Script × Scope) :=
  match scope.binding? name, scope.postponed? name with
  | some .mutable, _ => return ([Script.assign name value], scope)
  | some .const, _ => throw (.malformed
      ("CONST local " ++ name ++ " of " ++ job.id.text ++ " is defined more than once"))
  | none, some binding =>
      return ([binding.introduce name value], scope.bind name binding)
  | none, none => throw (.malformed
      ("local " ++ name ++ " of " ++ job.id.text ++ " is defined outside the scope of its binding"))

end Job

end GotoFree
