import GotoFree.Lowering.Instr

/-!
# Method bodies

The tree of a structured method becomes the body of its function, and each loop a function of its
own that calls itself to go round again. Jumps with a flag write it to the control cell; gates,
merges and the code after a loop read it there.
-/

namespace GotoFree

open Target (Script Stmt)

namespace LoopFrame

/-- The call that runs the loop again. -/
def again (frame : LoopFrame) : Target.Expr := .call frame.name (frame.params.map .var)

end LoopFrame

namespace Job

/-- Whether the method's function has a control cell. -/
def hasControlCell (job : Job) : Bool := !job.flags.recorded.isEmpty

/-- What is returned where control leaves the function without a value. -/
def emptyReturn (job : Job) (scope : Scope) : Target.Expr :=
  match scope.loop with
  | some frame => if frame.yieldsValue then job.method.returnType.default else .unit
  | none => job.method.returnType.default

/-! ## Flags -/

/-- Records a coordinate if something waits for it. -/
def record (job : Job) (coord : Coord) : Lower Script := do
  if coord ∈ job.flags.recorded then
    return [Script.assign controlCell (.int (← Lower.flag coord))]
  else return []

/-- The test whether the flag recorded last is one of some. -/
def flagTest (flags : List Int) : Lower Target.Expr :=
  match (Target.Expr.contentOf controlCell).anyOf? flags with
  | some test => return test
  | none => throw (.defect .emptyGate)

/-- The test whether the coordinate recorded last is one of some. -/
def gate (coords : CoordSet) : Lower Target.Expr := do
  flagTest (← coords.toList.mapM Lower.flag)

/-- Leaves along a coordinate. -/
def jump (job : Job) (scope : Scope) (coord : Coord) : Lower Script := do
  let recording ← job.record coord
  if coord ∈ job.flags.recursing then
    match scope.loop with
    | some frame => return recording ++ [Script.ret frame.again]
    | none => Lower.reject (.internal
        ("back edge " ++ coord.text ++ " of " ++ job.id.text ++ " outside of any loop"))
  else if coord ∈ job.flags.leaving then
    return recording ++ [Script.ret (job.emptyReturn scope)]
  else return recording

/-! ## Blocks -/

/-- What some instructions of a block have become. -/
structure Lowered where
  steps : Script
  scope : Scope
  /-- The condition of the branch among them. -/
  condition : Option Target.Expr
  /-- Whether there is a return among them. -/
  returned : Bool

/-- Steps and the scope after them. -/
def Lowered.plain (result : Script × Scope) : Lowered := ⟨result.1, result.2, none, false⟩

/-- Introduces the locals that a block is to introduce. A local that the block defines gets its
binding with the value. -/
def openBlock (job : Job) (id : BlockId) (defined : List String) (scope : Scope) :
    List (String × Binding) → Except Rejection (Script × Scope)
  | [] => return ([], scope)
  | (name, binding) :: rest => do
      if name ∈ defined then
        job.openBlock id defined (scope.postpone name binding) rest
      else match binding with
        | .mutable =>
            let start := (← job.localType name).default
            let (steps, scope) ← job.openBlock id defined (scope.bind name .mutable) rest
            return (Script.bindCell name start :: steps, scope)
        | .const => throw (.malformed ("local " ++ name ++ " of " ++ job.id.text
            ++ " is bound CONST at block " ++ id.text ++ " which never defines it"))

/-- The statements that tie fixed locals to the references passed for them. -/
def returnAliases (job : Job) (scope : Scope) : List Stmt :=
  job.method.incoming.filterMap fun param => do
    let target ← param.target
    if param.type.isReference && scope.binding? target = some .const then
      some (.aliased (.var param.name) (.var target))
    else none

/-- Returns from the method. -/
def ret (job : Job) (scope : Scope) (id : BlockId) (value : Option Operand) : Lower Script := do
  let value ← match value with
    | some operand => Lower.check (job.operand scope operand)
    | none => pure .unit
  let recording ← job.record ⟨id, .exit⟩
  return recording ++ Script.ofStmts (job.returnAliases scope) ++ [Script.ret value]

/-- Lowers one instruction of a block. -/
def instr (job : Job) (id : BlockId) (scope : Scope) (instr : Instr) : Lower Lowered :=
  match instr with
  | .branch condition => do
      let computed ← job.expr scope instr condition
      return ⟨computed.before ++ Script.ofStmts computed.after, scope, some computed.value, false⟩
  | .goto => return .plain ([], scope)
  | .ret value => return ⟨← job.ret scope id value, scope, none, true⟩
  | .identity target source => do
      if (scope.binding? target).isSome then return .plain ([], scope)
      else
        let param ← job.nameOfSource source instr
        return .plain (← job.store scope target (.var param))
  | _ => do return .plain (← job.plainInstr scope instr)

/-- Lowers the instructions of a block, the first of which has an index. -/
def instrs (job : Job) (id : BlockId) (index : Nat) (scope : Scope) :
    List Instr → Lower Lowered
  | [] => return .plain ([], scope)
  | first :: rest => do
      Lower.enter ⟨job.id, id, index⟩
      let head ← job.instr id scope first
      let tail ← job.instrs id (index + 1) head.scope rest
      return ⟨head.steps ++ tail.steps, tail.scope, tail.condition <|> head.condition,
        head.returned || tail.returned⟩

/-- Lowers a block. -/
def block (job : Job) (scope : Scope) (id : BlockId) : Lower Lowered := do
  match job.method.block? id with
  | none => Lower.reject (.internal
      ("block " ++ id.text ++ " of " ++ job.id.text ++ " disappeared"))
  | some block =>
      let introduced := ((job.plan.blocks.get? id).getD .empty).entries
      let (opening, scope) ←
        job.openBlock id (block.instrs.filterMap Instr.defines?) scope introduced
      let body ← job.instrs id 0 scope block.instrs
      return { body with steps := opening ++ body.steps }

/-! ## Loops -/

/-- The arguments of a loop's function: the control cell, the arguments of the method and the
bound locals. -/
def loopParams (job : Job) (scope : Scope) : List String :=
  (if job.hasControlCell then [controlCell] else []) ++ job.method.incomingNames ++ scope.locals

/-- The frame of a loop in a scope. -/
def loopFrame (job : Job) (scope : Scope) (label : Label) : LoopFrame where
  name := job.function ++ "__loop_" ++ label.head.text
  params := job.loopParams scope
  yieldsValue := label.notes.valueLoop.getD false

/-- The local that holds what the function of a loop has returned. -/
def loopResult (label : Label) : String := "__loop_res_" ++ label.head.text

/-- Runs a loop. -/
def runLoop (frame : LoopFrame) (label : Label) : Script :=
  if frame.yieldsValue then [Script.bindName (loopResult label) frame.again]
  else [.stmt (.expr frame.again)]

/-- The step that returns a value if one of some coordinates was recorded last. -/
def returnIf (coords : CoordSet) (value : Target.Expr) : Lower Script := do
  if coords.isEmpty then return []
  else return [.stmt (.onlyIf (← gate coords) [.ret value])]

/-- After a loop, runs the enclosing loop again if the coordinate recorded last asks for it. -/
def recurseAfter (job : Job) (scope : Scope) (label : Label) : Lower Script := do
  let coords := label.notes.recurseOn.getD .empty
  if coords.isEmpty then return []
  else match scope.loop with
    | some frame => returnIf coords frame.again
    | none => Lower.reject (.internal ("loop at block " ++ label.head.text ++ " of "
        ++ job.id.text ++ " continues an enclosing loop it does not have"))

/-- After a loop, leaves the enclosing function if the coordinate recorded last asks for it: with
the loop's value after a return, and without one after an exit. -/
def returnAfter (job : Job) (scope : Scope) (label : Label) : Lower Script := do
  let coords := label.notes.returnOn.getD .empty
  let returning ← returnIf (coords.filter (· ∈ label.jumps.returns)) (.var (loopResult label))
  let leaving ←
    returnIf (coords.filter (· ∉ label.jumps.returns)) (job.emptyReturn scope)
  return returning ++ leaving

/-! ## Trees -/

/-- The statements of a function's body; a body whose end may be reached returns there. -/
def closed (job : Job) (scope : Scope) (steps : Script) : List Stmt :=
  if steps.isTerminal then steps.stmts
  else (steps ++ [Script.ret (job.emptyReturn scope)]).stmts

/-- The test whether control came to an alternative of a merge. The one that starts the method is
also run before any flag is set. -/
def alternativeTest (job : Job) (merge : Label) (head : BlockId) : Lower Target.Expr := do
  let some choices := merge.notes.chooseBy
    | Lower.reject (.internal ("merge at block " ++ merge.head.text ++ " of " ++ job.id.text
        ++ " was not instrumented"))
  let some coords := choices.get? head
    | Lower.reject (.internal ("no selector for entry " ++ head.text
        ++ " of the merge at block " ++ merge.head.text))
  let flags ← coords.toList.mapM Lower.flag
  flagTest (if head = job.method.entry then 0 :: flags else flags)

mutual

/-- Lowers a part of a method, and gives the scope after it. -/
def tree (job : Job) (scope : Scope) : Tree → Lower (Script × Scope)
  | .jump label coord => do
      let body ← job.block scope label.head
      if body.returned then return (body.steps, body.scope)
      else return (body.steps ++ (← job.jump body.scope coord), body.scope)
  | .conditional label taken notTaken => do
      let body ← job.block scope label.head
      match body.condition with
      | none => Lower.reject (.internal ("block " ++ label.head.text ++ " of " ++ job.id.text
          ++ " is a conditional without a condition"))
      | some condition =>
          let thenBranch ← job.arm body.scope taken
          let elseBranch ← job.arm body.scope notTaken
          return (body.steps ++ [.stmt (.cond condition thenBranch elseBranch)], body.scope)
  | .sequence _ elems => job.elems scope elems
  | .loop label _ body => do
      let frame := job.loopFrame scope label
      let inside := scope.insideLoop frame
      let (steps, after) ← job.tree inside body
      Lower.addHelper ⟨frame.name, frame.params, job.closed after steps⟩
      let recursing ← job.recurseAfter scope label
      let returning ← job.returnAfter scope label
      return (runLoop frame label ++ recursing ++ returning, scope)
  | .merge label alternatives _ => do
      let selection ← job.alternatives scope label alternatives
      return (Script.ofStmts selection, scope)

/-- Lowers an arm of a conditional. -/
def arm (job : Job) (scope : Scope) : Arm → Lower (List Stmt)
  | .jump coord _ => do return (← job.jump scope coord).stmts
  | .nested tree => do return (← job.tree scope tree).1.stmts

/-- Lowers the elements of a sequence. An element with a gate is a block of its own. -/
def elems (job : Job) (scope : Scope) : List Tree → Lower (Script × Scope)
  | [] => return ([], scope)
  | tree :: rest => do
      match tree.notes.gateOn with
      | some coords =>
          let test ← gate coords
          let (steps, _) ← job.tree scope tree
          let own : Script := match steps.stmts with
            | [] => []
            | stmts => [.stmt (.onlyIf test stmts)]
          let (others, scope) ← job.elems scope rest
          return (own ++ others, scope)
      | none =>
          let (own, scope) ← job.tree scope tree
          let (others, scope) ← job.elems scope rest
          return (own ++ others, scope)

/-- The statements that select among the alternatives of a merge. -/
def alternatives (job : Job) (scope : Scope) (merge : Label) : List Tree → Lower (List Stmt)
  | [] => return [.assertFalse]
  | tree :: rest => do
      let test ← job.alternativeTest merge tree.head
      let (steps, _) ← job.tree scope tree
      let others ← job.alternatives scope merge rest
      return [.cond test steps.stmts others]

end

end Job

end GotoFree
