import GotoFree.Flow.Structure
import GotoFree.Lowering.Body

/-!
# Methods

A method becomes a function that makes the control cell, if it needs one, introduces the locals of
its plan's entry and runs the method's tree.
-/

namespace GotoFree

open Target (Script)

/-- What a method has become. -/
structure MethodCode where
  /-- The functions of its loops and dispatches, and its own function last. -/
  functions : List Target.Function
  /-- The name of its own function. -/
  name : String
  /-- The flags of the coordinates it records. -/
  flags : List (Int × Coord)

/-- Introduces the locals of a plan's entry. A fixed local that holds no argument is introduced
with its first value. -/
def Job.introduceEntry (job : Job) (scope : Scope) :
    List (String × Binding) → Except Rejection (Script × Scope)
  | [] => return ([], scope)
  | (name, binding) :: rest =>
      match job.method.incoming.find? fun param => param.target = some name, binding with
      | some param, binding => do
          let (steps, scope) ← job.introduceEntry (scope.bind name binding) rest
          return (binding.introduce name (.var param.name) :: steps, scope)
      | none, .mutable => do
          let start := (← job.localType name).default
          let (steps, scope) ← job.introduceEntry (scope.bind name .mutable) rest
          return (Script.bindCell name start :: steps, scope)
      | none, .const => job.introduceEntry (scope.postpone name .const) rest

namespace Lower

/-- Structures and marks a method. -/
def structured (id : MethodId) (method : Method) : Lower (Tree × Flags) := do
  match BlockGraph.ofBlocks method.entry method.blocks with
  | .error error => reject (.graph id error)
  | .ok graph =>
      graph.warnings.forM warn
      match graph.toStructured with
      | .error (.graph error) => reject (.graph id error)
      | .error (.defect defect) => throw (.defect defect)
      | .ok found => rely (found.root.marked found.recursing)

/-- Lowers a method. -/
def method (setting : Setting) (id : MethodId) (method : Method) : Lower MethodCode := do
  let function ← request id method
  let plan ← check method.checkedPlan
  let (tree, flags) ← structured id method
  modify fun progress => { progress with recorded := .empty, helpers := [] }
  let job : Job := { setting, id, method, function, plan, flags }
  let control :=
    if job.hasControlCell then [Script.bindCell controlCell (.int 0)] else []
  let (entry, scope) ← check (job.introduceEntry .empty plan.entry.entries)
  let (steps, after) ← job.tree scope tree
  let own : Target.Function :=
    ⟨function, method.incomingNames, job.closed after (control ++ entry ++ steps)⟩
  let progress ← get
  return {
    functions := progress.helpers ++ [own]
    name := function
    flags := (progress.recorded.listed 1).map fun (flag, coord) => ((flag : Int), coord)
  }

end Lower

end GotoFree
