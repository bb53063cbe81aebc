import GotoFree.Program.Ty
import GotoFree.SortedSet

/-!
# Instructions

Three-address instructions as they stand in basic blocks: operands are locals or literals, an
expression applies one operation to operands, and an instruction evaluates at most one expression.
Accesses to fields and calls carry the set of classes that an analysis found for the object.
-/

namespace GotoFree

/-- What an identity instruction copies into its local. -/
inductive Source where
  | this
  | param (index : UInt64)
deriving DecidableEq

namespace Source

/-- The receiver comes first, then the parameters by position. -/
instance : Key Source :=
  Key.ofInjective (fun source => match source with | .this => 0 | .param i => i.toNat + 1)
    (by
      intro a b same
      cases a <;> cases b <;> simp_all [UInt64.toNat_inj])

/-- The source as an identity instruction shows it. -/
def text : Source → String
  | .this => "@this"
  | .param index => "@parameter" ++ toString index.toNat

end Source

/-- A local or a literal. -/
inductive Operand where
  | var (name : String)
  | int (value : Int64)
  | bool (value : Bool)
  | null
deriving DecidableEq

namespace Operand

/-- The local an operand names. -/
def var? : Operand → Option String
  | .var name => some name
  | .int _ | .bool _ | .null => none

/-- The operand as it is written in instructions. -/
def text : Operand → String
  | .var name => name
  | .int value => toString value.toInt
  | .bool true => "true"
  | .bool false => "false"
  | .null => "null"

end Operand

/-- An operator on two operands. -/
inductive BinOp where
  | add | sub | mul | div | rem
  | eq | ne | lt | le | gt | ge
  | and | or
deriving DecidableEq

/-- The operator's sign between its operands. -/
def BinOp.sign : BinOp → String
  | .add => "+"
  | .sub => "-"
  | .mul => "*"
  | .div => "/"
  | .rem => "%"
  | .eq => "=="
  | .ne => "!="
  | .lt => "<"
  | .le => "<="
  | .gt => ">"
  | .ge => ">="
  | .and => "&"
  | .or => "|"

/-- An operator on one operand. -/
inductive UnOp where
  | neg
  | not
deriving DecidableEq

/-- The operator as it stands before its operand. -/
def UnOp.sign : UnOp → String
  | .neg => "neg "
  | .not => "!"

/-- How a call finds its callee: by name, by name from a fixed class upwards, or by the class of
the receiver at run time. -/
inductive CallKind where
  | static
  | special
  | virtual
deriving DecidableEq

/-- The keyword of a call of this kind. -/
def CallKind.text : CallKind → String
  | .static => "staticinvoke"
  | .special => "specialinvoke"
  | .virtual => "virtualinvoke"

/-- The method a call names. -/
structure Callee where
  className : String
  name : String
  arity : UInt64
deriving DecidableEq

/-- A call with its receiver and arguments. -/
structure Call where
  kind : CallKind
  callee : Callee
  receiver : Option String
  args : List Operand
  /-- The classes the receiver of a virtual call may have. -/
  possibleReceivers : SortedSet String
deriving DecidableEq

/-- The call as it is written in instructions. -/
def Call.text (call : Call) : String :=
  let receiver := match call.receiver with
    | some name => name ++ "."
    | none => ""
  call.kind.text ++ " " ++ receiver ++ "<" ++ call.callee.className ++ "." ++ call.callee.name
    ++ ">(" ++ ", ".intercalate (call.args.map Operand.text) ++ ")"

/-- A field named by a class and a field name. -/
structure FieldRef where
  className : String
  name : String
deriving DecidableEq

/-- The field as messages show it. -/
def FieldRef.text (field : FieldRef) : String := field.className ++ "." ++ field.name

/-- The right-hand side of an assignment, or the condition of a branch. -/
inductive Expr where
  | use (operand : Operand)
  | binary (op : BinOp) (left right : Operand)
  | unary (op : UnOp) (operand : Operand)
  | fieldRead (base : String) (field : FieldRef) (possibleTypes : SortedSet String)
  | arrayRead (base : String) (index : Operand)
  | arrayLength (base : String)
  | new (className : String)
  | newArray (element : Ty) (size : Operand)
  | call (site : Call)
  | nondet
  | cast (operand : Operand) (type : Ty)
  /-- A form outside this vocabulary, kept as text for messages. -/
  | unmodelled (text : String) (operandTypes : List Ty)
deriving DecidableEq

/-- The expression as it is written in instructions. -/
def Expr.text : Expr → String
  | .use operand => operand.text
  | .binary op left right => left.text ++ " " ++ op.sign ++ " " ++ right.text
  | .unary op operand => op.sign ++ operand.text
  | .fieldRead base field _ => base ++ ".<" ++ field.text ++ ">"
  | .arrayRead base index => base ++ "[" ++ index.text ++ "]"
  | .arrayLength base => "lengthof " ++ base
  | .new className => "new " ++ className
  | .newArray element size => "newarray (" ++ element.text ++ ")[" ++ size.text ++ "]"
  | .call site => site.text
  | .nondet => "nondet()"
  | .cast operand type => "(" ++ type.text ++ ") " ++ operand.text
  | .unmodelled text _ => text

/-- What an assignment stores into. -/
inductive Place where
  | var (name : String)
  | field (base : String) (field : FieldRef) (possibleTypes : SortedSet String)
  | arrayElement (base : String) (index : Operand)
deriving DecidableEq

/-- The place as it is written in instructions. -/
def Place.text : Place → String
  | .var name => name
  | .field base target _ => base ++ ".<" ++ target.text ++ ">"
  | .arrayElement base index => base ++ "[" ++ index.text ++ "]"

/-- A path of fields from a local into the heap. -/
structure AccessPath where
  base : String
  fields : List FieldRef
deriving DecidableEq

/-- The path as it is written in instructions. -/
def AccessPath.text (path : AccessPath) : String :=
  path.base ++ String.join (path.fields.map fun field => ".<" ++ field.text ++ ">")

/-- One instruction of a basic block. -/
inductive Instr where
  | identity (target : String) (source : Source)
  | assign (target : Place) (value : Expr)
  /-- Goes to the first successor if the condition holds and to the second one otherwise. -/
  | branch (condition : Expr)
  | goto
  | ret (value : Option Operand)
  | call (site : Call)
  | nop (unreachable : Bool)
  | throw (value : Operand)
  /-- States that two paths denote one cell. -/
  | aliased (left right : AccessPath)
deriving DecidableEq

namespace Instr

/-- The number of successors of a block that ends in the instruction. -/
def fanOut : Instr → Nat
  | .branch _ => 2
  | .ret _ | .throw _ => 0
  | .identity .. | .assign .. | .goto | .call _ | .nop _ | .aliased .. => 1

/-- Whether the instruction is a two-way branch. -/
def isBranch : Instr → Bool
  | .branch _ => true
  | _ => false

/-- Whether the instruction returns from the method. -/
def isReturn : Instr → Bool
  | .ret _ => true
  | _ => false

/-- The local the instruction defines. -/
def defines? : Instr → Option String
  | .identity target _ => some target
  | .assign (.var name) _ => some name
  | _ => none

/-- The instruction as messages show it. -/
def text : Instr → String
  | .identity target source => target ++ " := " ++ source.text
  | .assign target value => target.text ++ " = " ++ value.text
  | .branch condition => "if " ++ condition.text
  | .goto => "goto"
  | .ret (some value) => "return " ++ value.text
  | .ret none => "return"
  | .call site => site.text
  | .nop true => "nop (unreachable)"
  | .nop false => "nop"
  | .throw value => "throw " ++ value.text
  | .aliased left right => "alias(" ++ left.text ++ ", " ++ right.text ++ ")"

end Instr

/-! ## Locals an instruction reads -/

/-- The locals a call reads: its receiver and its arguments. -/
def Call.locals (call : Call) : List String :=
  call.receiver.toList ++ call.args.filterMap Operand.var?

/-- The locals an expression reads. -/
def Expr.locals : Expr → List String
  | .use operand | .unary _ operand | .cast operand _ | .newArray _ operand => operand.var?.toList
  | .binary _ left right => left.var?.toList ++ right.var?.toList
  | .fieldRead base _ _ | .arrayLength base => [base]
  | .arrayRead base index => base :: index.var?.toList
  | .call site => site.locals
  | .new _ | .nondet | .unmodelled .. => []

/-- The locals a place reads; storing into a local reads none. -/
def Place.locals : Place → List String
  | .var _ => []
  | .field base _ _ => [base]
  | .arrayElement base index => base :: index.var?.toList

/-- The locals an instruction reads. -/
def Instr.uses : Instr → SortedSet String
  | .assign target value => .ofList (target.locals ++ value.locals)
  | .branch condition => .ofList condition.locals
  | .ret value => .ofList (value.bind Operand.var?).toList
  | .throw value => .ofList value.var?.toList
  | .call site => .ofList site.locals
  | .aliased left right => .ofList [left.base, right.base]
  | .identity .. | .goto | .nop _ => .empty

end GotoFree
