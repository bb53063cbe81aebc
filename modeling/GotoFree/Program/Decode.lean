import GotoFree.Json.Shape
import GotoFree.Program

/-!
# Reading programs

The JSON form of a program and its parts. Forms of a variant are named in lower case with
underscores, members with a default may be absent, and members nobody knows are passed over.
-/

namespace GotoFree

open Json

/-- Reads a set of names, listed in any order. -/
def readNames : Reader (SortedSet String) := mapped .ofList (list string)

/-- Reads an unsigned number of 64 bits. -/
def readWord : Reader UInt64 :=
  mapped (fun n => UInt64.ofNat n.toNat) (integer 0 0xFFFFFFFFFFFFFFFF)

namespace Ty

/-- The forms of a type, given how the element type of an array is read. -/
def form? (element : Scan Ty) : String → Option (Form Ty)
  | "int" => some (.plain .int)
  | "bool" => some (.plain .bool)
  | "ref" => some (.tagged (mapped .ref string))
  | "array" => some (.tagged (mapped .array fun _ => element))
  | "void" => some (.plain .void)
  | _ => none

/-- Reads a type. -/
def read : Reader Ty
  | 0 => variant (form? fun text => throw ⟨.malformed, text⟩) 0
  | inner + 1 => variant (form? (read inner)) (inner + 1)

end Ty

/-- Reads a named value with its type. -/
def Declared.read : Reader Declared :=
  record (required "name" string <| required "ty" Ty.read <| .done)
    fun (name, type, ()) => ⟨name, type⟩

/-- Reads a class. -/
def ClassDecl.read : Reader ClassDecl :=
  record (required "name" string <| optional "superclass" none (nullable string) <|
      optional "fields" [] (list Declared.read) <| .done)
    fun (name, superclass, fields, ()) => ⟨name, superclass, fields⟩

/-- Reads a reference to a field. -/
def FieldRef.read : Reader FieldRef :=
  record (required "class" string <| required "name" string <| .done)
    fun (className, name, ()) => ⟨className, name⟩

/-- Reads the source of an identity instruction. -/
def Source.read : Reader Source :=
  variant fun
    | "this" => some (.plain .this)
    | "param" => some (.tagged (mapped .param readWord))
    | _ => none

/-- Reads an operand. -/
def Operand.read : Reader Operand :=
  variant fun
    | "local" => some (.tagged (mapped .var string))
    | "int" => some (.tagged (mapped (fun n => .int (Int64.ofInt n))
        (integer Int64.minValue.toInt Int64.maxValue.toInt)))
    | "bool" => some (.tagged (mapped .bool boolean))
    | "null" => some (.plain .null)
    | _ => none

/-- The names of the operators on two operands. -/
def BinOp.names : List (String × BinOp) :=
  [("add", .add), ("sub", .sub), ("mul", .mul), ("div", .div), ("rem", .rem), ("eq", .eq),
    ("ne", .ne), ("lt", .lt), ("le", .le), ("gt", .gt), ("ge", .ge), ("and", .and), ("or", .or)]

/-- The names of the operators on one operand. -/
def UnOp.names : List (String × UnOp) := [("neg", .neg), ("not", .not)]

/-- The names of the kinds of calls. -/
def CallKind.names : List (String × CallKind) :=
  [("static", .static), ("special", .special), ("virtual", .virtual)]

/-- The names of the bindings. -/
def Binding.names : List (String × Binding) := [("CONST", .const), ("MUTABLE", .mutable)]

/-- Reads the name of a callee. -/
def Callee.read : Reader Callee :=
  record (required "class" string <| required "name" string <| required "arity" readWord <| .done)
    fun (className, name, arity, ()) => ⟨className, name, arity⟩

/-- Reads a call. -/
def Call.read : Reader Call :=
  record (required "kind" (choice CallKind.names) <| required "method" Callee.read <|
      optional "receiver" none (nullable string) <| optional "args" [] (list Operand.read) <|
      optional "possible_receivers" .empty readNames <| .done)
    fun (kind, callee, receiver, args, possible, ()) => ⟨kind, callee, receiver, args, possible⟩

/-- Reads an expression. -/
def Expr.read : Reader Expr :=
  variant fun
    | "use" => some (.tagged (mapped .use Operand.read))
    | "binary" => some (.tagged (record
        (required "op" (choice BinOp.names) <| required "lhs" Operand.read <|
          required "rhs" Operand.read <| .done)
        fun (op, left, right, ()) => .binary op left right))
    | "unary" => some (.tagged (record
        (required "op" (choice UnOp.names) <| required "operand" Operand.read <| .done)
        fun (op, operand, ()) => .unary op operand))
    | "field_read" => some (.tagged (record
        (required "base" string <| required "field" FieldRef.read <|
          optional "possible_types" .empty readNames <| .done)
        fun (base, field, possible, ()) => .fieldRead base field possible))
    | "array_read" => some (.tagged (record
        (required "base" string <| required "index" Operand.read <| .done)
        fun (base, index, ()) => .arrayRead base index))
    | "array_length" => some (.tagged (mapped .arrayLength string))
    | "new" => some (.tagged (mapped .new string))
    | "new_array" => some (.tagged (record
        (required "elem" Ty.read <| required "size" Operand.read <| .done)
        fun (element, size, ()) => .newArray element size))
    | "invoke" => some (.tagged (mapped .call Call.read))
    | "nondet" => some (.plain .nondet)
    | "cast" => some (.tagged (record
        (required "operand" Operand.read <| required "ty" Ty.read <| .done)
        fun (operand, type, ()) => .cast operand type))
    | "unmodelled" => some (.tagged (record
        (required "text" string <| optional "operand_types" [] (list Ty.read) <| .done)
        fun (text, operandTypes, ()) => .unmodelled text operandTypes))
    | _ => none

/-- Reads a place. -/
def Place.read : Reader Place :=
  variant fun
    | "local" => some (.tagged (mapped .var string))
    | "field" => some (.tagged (record
        (required "base" string <| required "field" FieldRef.read <|
          optional "possible_types" .empty readNames <| .done)
        fun (base, target, possible, ()) => .field base target possible))
    | "array_elem" => some (.tagged (record
        (required "base" string <| required "index" Operand.read <| .done)
        fun (base, index, ()) => .arrayElement base index))
    | _ => none

/-- Reads an access path. -/
def AccessPath.read : Reader AccessPath :=
  record (required "local" string <| optional "fields" [] (list FieldRef.read) <| .done)
    fun (base, fields, ()) => ⟨base, fields⟩

/-- Reads an instruction. -/
def Instr.read : Reader Instr :=
  variant fun
    | "identity" => some (.tagged (record
        (required "local" string <| required "source" Source.read <| .done)
        fun (target, source, ()) => .identity target source))
    | "assign" => some (.tagged (record
        (required "target" Place.read <| required "value" Expr.read <| .done)
        fun (target, value, ()) => .assign target value))
    | "if" => some (.tagged (record (required "cond" Expr.read <| .done)
        fun (condition, ()) => .branch condition))
    | "goto" => some (.plain .goto)
    | "return" => some (.tagged (record
        (optional "value" none (nullable Operand.read) <| .done)
        fun (value, ()) => .ret value))
    | "invoke" => some (.tagged (mapped .call Call.read))
    | "nop" => some (.tagged (record (optional "unreachable" false boolean <| .done)
        fun (unreachable, ()) => .nop unreachable))
    | "throw" => some (.tagged (record (required "value" Operand.read <| .done)
        fun (value, ()) => .throw value))
    | "alias" => some (.tagged (record
        (required "left" AccessPath.read <| required "right" AccessPath.read <| .done)
        fun (left, right, ()) => .aliased left right))
    | _ => none

namespace BlockId

/-- The greatest block number. -/
def greatest : Int := 0xFFFFFFFF

/-- The block of a number within bounds. -/
def ofInt (n : Int) : BlockId := ⟨UInt32.ofNat n.toNat⟩

/-- Reads a block number. -/
def read : Reader BlockId := mapped ofInt (integer 0 greatest)

/-- Reads a block number that names a member. -/
def readName : Scan BlockId := fun text => do
  let (number, rest) ← memberNumber 0 greatest text
  return (ofInt number, rest)

end BlockId

/-- Reads a block. -/
def Block.read : Reader Block :=
  record (required "id" BlockId.read <| required "instrs" (list Instr.read) <|
      optional "succs" [] (list BlockId.read) <| .done)
    fun (id, instrs, succs, ()) => ⟨id, instrs, succs⟩

/-- Reads how the locals of one scope are bound; of two members for one local the later counts. -/
def readBindings : Reader (SortedMap String Binding) :=
  mapped .ofList (entries memberName (choice Binding.names))

/-- Reads a binding plan. -/
def BindingPlan.read : Reader BindingPlan :=
  record (optional "entry" .empty readBindings <|
      optional "blocks" .empty (mapped .ofList (entries BlockId.readName readBindings)) <| .done)
    fun (entry, blocks, ()) => ⟨entry, blocks⟩

/-- Reads a method. -/
def Method.read : Reader Method :=
  record (required "class" string <| required "name" string <|
      optional "is_static" false boolean <| optional "params" [] (list Ty.read) <|
      required "return_type" Ty.read <| optional "locals" [] (list Declared.read) <|
      required "entry" BlockId.read <| required "blocks" (list Block.read) <|
      optional "bindings" none (nullable BindingPlan.read) <| .done)
    fun (className, name, isStatic, params, returnType, locals, entry, blocks, plan, ()) =>
      ⟨className, name, isStatic, params, returnType, locals, entry, blocks, plan⟩

/-- Reads the name of a method where it names a member. -/
def MethodId.readName : Scan MethodId := fun text => do
  let (name, rest) ← memberName text
  return (⟨name⟩, rest)

namespace Program

/-- Reads a program; of two methods of one name the later counts. -/
def read : Reader Program :=
  record (optional "classes" [] (list ClassDecl.read) <|
      required "methods" (mapped .ofList (entries MethodId.readName Method.read)) <|
      required "entry" (mapped MethodId.mk string) <| .done)
    fun (classes, methods, entry, ()) => ⟨classes, methods, entry⟩

/-- Reads a program from its text. -/
def parse (source : String) : Except Stop Program := read.whole source.toList

end Program

end GotoFree
