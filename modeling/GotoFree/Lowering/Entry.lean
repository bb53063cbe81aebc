import GotoFree.Lowering.Rejection
import GotoFree.Program
import GotoFree.Storage.Bindings

/-!
# The entry method

The lowered program is run without arguments. An entry method may declare the argument vector of a
command line, as long as it does not use it; the parameter is taken away before lowering.
-/

namespace GotoFree

/-- Whether a parameter list is that of a method that takes the arguments of a command line. -/
def isCommandLine : List Ty → Bool
  | [.array (.ref className)] => className = "String" || className = "java.lang.String"
  | _ => false

namespace Method

/-- The source that stands for the argument vector. -/
def argumentSource : Source := .param 0

/-- Whether an instruction other than an identity touches a local. -/
def touches (name : String) : Instr → Bool
  | .identity .. => false
  | instr => name ∈ instr.uses || instr.defines? = some name

/-- The first instruction that touches the local of the argument vector. -/
def argumentUse? (method : Method) : Option Instr := do
  let name ← method.argumentLocals.get? argumentSource
  method.instrs.find? (touches name)

/-- The plan without a local. -/
def withoutLocal (plan : BindingPlan) (name : String) : BindingPlan where
  entry := plan.entry.erase name
  blocks := plan.blocks.mapValues fun locals => locals.erase name

/-- The instruction that stands where the argument vector was copied. -/
def dropArgumentCopy : Instr → Instr
  | .identity target source =>
      if source = argumentSource then .nop false else .identity target source
  | instr => instr

/-- The method without its argument vector and the local that holds it. -/
def withoutArguments (method : Method) : Method :=
  let blocks := method.blocks.map fun block =>
    { block with instrs := block.instrs.map dropArgumentCopy }
  match method.argumentLocals.get? argumentSource with
  | none => { method with params := [], blocks }
  | some name => { method with
      params := []
      blocks
      locals := method.locals.filter fun declared => declared.name ≠ name
      plan := method.plan.map fun plan => withoutLocal plan name }

end Method

namespace Program

/-- Complains about the entry method. -/
def rejectEntry (program : Program) (method : Method) (construct instruction : String) :
    Rejection :=
  .unsupported program.entry construct instruction (method.params.map Ty.text)

/-- The program with an entry method that takes no arguments. -/
def withoutArguments (program : Program) : Except Rejection Program :=
  match program.method? program.entry with
  | none => throw (.malformed ("entry method " ++ program.entry.text ++ " has no body"))
  | some method =>
      if !method.isStatic then
        throw (program.rejectEntry method "instance entry method" method.label)
      else if method.params.isEmpty then return program
      else if !isCommandLine method.params then
        throw (program.rejectEntry method "entry method with parameters" method.label)
      else match method.argumentUse? with
        | some instr =>
            throw (program.rejectEntry method "use of the argument vector" instr.text)
        | none => return { program with
            methods := program.methods.insert program.entry method.withoutArguments }

end Program

end GotoFree
