import GotoFree.Json.Value
import GotoFree.Program.Decode

/-!
# Writing programs

The JSON form of a program and its parts. Every member is written, also where its value is the one
it takes when it is absent.
-/

namespace GotoFree

open Json (Value)

/-- A form of a variant with its content. -/
def tagged (name : String) (content : Value) : Value := .object [(name, content)]

/-- A set of names. -/
def writeNames (names : SortedSet String) : Value := .array (names.toList.map .string)

/-- A text or nothing. -/
def writeName? : Option String → Value
  | some name => .string name
  | none => .null

/-- The name that a list of names gives a value. -/
def nameIn {α : Type} [DecidableEq α] (names : List (String × α)) (value : α) : Value :=
  .string ((names.find? fun entry => entry.2 = value).elim "" Prod.fst)

/-- The JSON form of a type. -/
def Ty.toJson : Ty → Value
  | .int => .string "int"
  | .bool => .string "bool"
  | .ref className => tagged "ref" (.string className)
  | .array element => tagged "array" element.toJson
  | .void => .string "void"

/-- The JSON form of a named value. -/
def Declared.toJson (declared : Declared) : Value :=
  .object [("name", .string declared.name), ("ty", declared.type.toJson)]

/-- The JSON form of a class. -/
def ClassDecl.toJson (decl : ClassDecl) : Value :=
  .object [("name", .string decl.name), ("superclass", writeName? decl.superclass),
    ("fields", .array (decl.fields.map Declared.toJson))]

/-- The JSON form of a reference to a field. -/
def FieldRef.toJson (field : FieldRef) : Value :=
  .object [("class", .string field.className), ("name", .string field.name)]

/-- The JSON form of the source of an identity instruction. -/
def Source.toJson : Source → Value
  | .this => .string "this"
  | .param index => tagged "param" (.number index.toNat)

/-- The JSON form of an operand. -/
def Operand.toJson : Operand → Value
  | .var name => tagged "local" (.string name)
  | .int value => tagged "int" (.number value.toInt)
  | .bool value => tagged "bool" (.bool value)
  | .null => .string "null"

/-- The JSON form of a callee's name. -/
def Callee.toJson (callee : Callee) : Value :=
  .object [("class", .string callee.className), ("name", .string callee.name),
    ("arity", .number callee.arity.toNat)]

/-- The JSON form of a call. -/
def Call.toJson (call : Call) : Value :=
  .object [("kind", nameIn CallKind.names call.kind), ("method", call.callee.toJson),
    ("receiver", writeName? call.receiver), ("args", .array (call.args.map Operand.toJson)),
    ("possible_receivers", writeNames call.possibleReceivers)]

/-- The JSON form of an expression. -/
def Expr.toJson : Expr → Value
  | .use operand => tagged "use" operand.toJson
  | .binary op left right => tagged "binary" (.object
      [("op", nameIn BinOp.names op), ("lhs", left.toJson), ("rhs", right.toJson)])
  | .unary op operand => tagged "unary" (.object
      [("op", nameIn UnOp.names op), ("operand", operand.toJson)])
  | .fieldRead base field possible => tagged "field_read" (.object
      [("base", .string base), ("field", field.toJson), ("possible_types", writeNames possible)])
  | .arrayRead base index => tagged "array_read" (.object
      [("base", .string base), ("index", index.toJson)])
  | .arrayLength base => tagged "array_length" (.string base)
  | .new className => tagged "new" (.string className)
  | .newArray element size => tagged "new_array" (.object
      [("elem", element.toJson), ("size", size.toJson)])
  | .call site => tagged "invoke" site.toJson
  | .nondet => .string "nondet"
  | .cast operand type => tagged "cast" (.object
      [("operand", operand.toJson), ("ty", type.toJson)])
  | .unmodelled text operandTypes => tagged "unmodelled" (.object
      [("text", .string text), ("operand_types", .array (operandTypes.map Ty.toJson))])

/-- The JSON form of a place. -/
def Place.toJson : Place → Value
  | .var name => tagged "local" (.string name)
  | .field base target possible => tagged "field" (.object
      [("base", .string base), ("field", target.toJson), ("possible_types", writeNames possible)])
  | .arrayElement base index => tagged "array_elem" (.object
      [("base", .string base), ("index", index.toJson)])

/-- The JSON form of an access path. -/
def AccessPath.toJson (path : AccessPath) : Value :=
  .object [("local", .string path.base), ("fields", .array (path.fields.map FieldRef.toJson))]

/-- The JSON form of an instruction. -/
def Instr.toJson : Instr → Value
  | .identity target source => tagged "identity" (.object
      [("local", .string target), ("source", source.toJson)])
  | .assign target value => tagged "assign" (.object
      [("target", target.toJson), ("value", value.toJson)])
  | .branch condition => tagged "if" (.object [("cond", condition.toJson)])
  | .goto => .string "goto"
  | .ret value => tagged "return" (.object [("value", value.elim .null Operand.toJson)])
  | .call site => tagged "invoke" site.toJson
  | .nop unreachable => tagged "nop" (.object [("unreachable", .bool unreachable)])
  | .throw value => tagged "throw" (.object [("value", value.toJson)])
  | .aliased left right => tagged "alias" (.object
      [("left", left.toJson), ("right", right.toJson)])

/-- The JSON form of a block number. -/
def BlockId.toJson (id : BlockId) : Value := .number id.number.toNat

/-- The JSON form of a block. -/
def Block.toJson (block : Block) : Value :=
  .object [("id", block.id.toJson), ("instrs", .array (block.instrs.map Instr.toJson)),
    ("succs", .array (block.succs.map BlockId.toJson))]

/-- The JSON form of a binding. -/
def Binding.toJson (binding : Binding) : Value := nameIn Binding.names binding

/-- The JSON form of the bindings of one scope. -/
def writeBindings (bindings : SortedMap String Binding) : Value :=
  .object (bindings.entries.map fun (name, binding) => (name, binding.toJson))

/-- The JSON form of a binding plan. -/
def BindingPlan.toJson (plan : BindingPlan) : Value :=
  .object [("entry", writeBindings plan.entry),
    ("blocks", .object (plan.blocks.entries.map fun (id, bindings) =>
      (id.text, writeBindings bindings)))]

/-- The JSON form of a method. -/
def Method.toJson (method : Method) : Value :=
  .object [("class", .string method.className), ("name", .string method.name),
    ("is_static", .bool method.isStatic), ("params", .array (method.params.map Ty.toJson)),
    ("return_type", method.returnType.toJson),
    ("locals", .array (method.locals.map Declared.toJson)), ("entry", method.entry.toJson),
    ("blocks", .array (method.blocks.map Block.toJson)),
    ("bindings", method.plan.elim .null BindingPlan.toJson)]

/-- The JSON form of a program. -/
def Program.toJson (program : Program) : Value :=
  .object [("classes", .array (program.classes.map ClassDecl.toJson)),
    ("methods", .object (program.methods.entries.map fun (id, method) =>
      (id.text, method.toJson))),
    ("entry", .string program.entry.text)]

end GotoFree
