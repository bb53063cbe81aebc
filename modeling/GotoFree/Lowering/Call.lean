import GotoFree.Lowering.Value

/-!
# Calls

A static call names its callee, a special call finds it from a fixed class upwards. A virtual call
runs the implementation for the class of its receiver; if there are several, a dispatch function
selects one by the receiver's tag. The content of a cell is passed under a name, which is tied to
the cell again after the call.
-/

namespace GotoFree

open Target (Script Stmt)

/-- The implementations that a virtual call may run, each with the classes that select it. -/
abbrev DispatchTable := SortedMap MethodId (SortedSet String)

namespace Job

/-- The name of the function of a method that a call has found. -/
def requestCallee (job : Job) (callee : MethodId) : Lower String :=
  match job.setting.program.method? callee with
  | some method => Lower.request callee method
  | none => Lower.reject (.internal ("resolved callee " ++ callee.text ++ " has no body"))

/-- The message parts of a call that is not lowered. -/
def siteText (job : Job) (instr : Instr) : String :=
  "\x60" ++ instr.text ++ "\x60 in " ++ job.id.text

/-- The implementations that a virtual call may run. -/
def dispatchTable (job : Job) (site : Call) (instr : Instr) :
    Except Rejection DispatchTable := do
  if site.possibleReceivers.isEmpty then
    throw (.internal ("virtual call " ++ job.siteText instr ++ " has an empty points-to set"))
  site.possibleReceivers.toList.foldlM (fun table className =>
    match job.setting.program.resolve className site.callee.name site.callee.arity.toNat with
    | some callee =>
        return table.insert callee (((table.get? callee).getD .empty).insert className)
    | none => throw (job.unsupported
        ("virtual call with no implementation for receiver " ++ className) instr []))
    SortedMap.empty

/-- The width that all receivers of a virtual call share. -/
def receiverWidth (job : Job) (site : Call) (instr : Instr) : Except Rejection Nat := do
  let widths ← site.possibleReceivers.toList.mapM fun className =>
    match job.setting.layout.width? className with
    | some width => return width
    | none => throw (.internal ("receiver of " ++ job.siteText instr ++ " has no layout"))
  match (SortedSet.ofList widths).toList with
  | [width] => return width
  | _ => throw (job.unsupported "virtual call over receivers with different representations" instr
      site.possibleReceivers.toList)

/-- The statement of a dispatch function that runs one implementation for its classes. -/
def dispatchArm (job : Job) (tag : Target.Expr) (args : List Target.Expr) (callee : MethodId)
    (classes : SortedSet String) : Lower Stmt := do
  let tags ← classes.toList.mapM fun className =>
    match job.setting.layout.tag? className with
    | some number => return (number : Int)
    | none => Lower.reject
        (.internal ("receiver class of " ++ callee.text ++ " has no tag"))
  let function ← job.requestCallee callee
  match tag.anyOf? tags with
  | some test => return .onlyIf test [.ret (.call function args)]
  | none => throw (.defect .emptyGate)

/-- The type that the last implementation of a table returns. -/
def dispatchType (job : Job) (table : DispatchTable) : Ty :=
  (table.keys.getLast?.bind job.setting.program.method?).elim .void Method.returnType

/-- Makes the dispatch function of a virtual call, and gives its name. -/
def dispatch (job : Job) (site : Call) (table : DispatchTable) (instr : Instr) :
    Lower String := do
  let width ← job.receiverWidth site instr
  let name := "__vtable_" ++ toString (← get).temporaries.unit
  let params := "this" ::
    (List.range site.callee.arity.toNat).map fun index => "__p" ++ toString index
  let (steps, tag) := job.setting.model.read ⟨.var "this", 0, width, "__tag"⟩
  let arms ← table.entries.mapM fun (callee, classes) =>
    job.dispatchArm tag (params.map .var) callee classes
  let last := [Stmt.assertFalse, .ret (job.dispatchType table).default]
  Lower.addHelper ⟨name, params, (steps ++ Script.ofStmts (arms ++ last)).stmts⟩
  return name

/-- The name of the function that a call runs; there is none for a constructor without a body,
whose call is dropped. -/
def calleeOf (job : Job) (site : Call) (instr : Instr) : Lower (Option String) := do
  let callee := site.callee
  let arity := callee.arity.toNat
  let direct := job.setting.program.methodTaking callee.className callee.name arity
  let noBody := job.unsupported "call to a method without a body" instr []
  match site.kind with
  | .static =>
      match direct with
      | some id => return some (← job.requestCallee id)
      | none => Lower.reject noBody
  | .special =>
      match job.setting.program.resolve callee.className callee.name arity <|> direct with
      | some id => return some (← job.requestCallee id)
      | none =>
          if callee.name = Program.constructorName then
            Lower.warn ("dropping call to " ++ callee.className ++ "." ++ callee.name ++ " in "
              ++ job.id.text ++ ": no body available")
            return none
          else Lower.reject noBody
  | .virtual =>
      let table ← job.dispatchTable site instr
      match table.entries with
      | [(id, _)] => return some (← job.requestCallee id)
      | _ => return some (← job.dispatch site table instr)

/-- The operands that a call passes: the receiver of an instance call comes first. -/
def operandsOf (job : Job) (site : Call) (instr : Instr) : Except Rejection (List Operand) :=
  match site.kind, site.receiver with
  | .static, _ => return site.args
  | _, some receiver => return .var receiver :: site.args
  | _, none => throw (.malformed ("instance call " ++ job.siteText instr ++ " has no receiver"))

/-- Whether an operand is a cell that holds an object. -/
def isObjectCell (job : Job) (scope : Scope) : Operand → Except Rejection Bool
  | .var name =>
      match scope.binding? name with
      | some .mutable => return (← job.localType name).isReference
      | some .const | none => return false
  | .int _ | .bool _ | .null => return false

/-- The argument at a position of the call of an instruction with some temporaries. -/
def pass (job : Job) (scope : Scope) (temporaries : Temporaries) (operand : Operand)
    (position : Nat) : Except Rejection Computed := do
  match operand.var?, ← job.isObjectCell scope operand with
  | some name, true =>
      let temporary := temporaries.argument position
      return ⟨[Script.bindName temporary (.contentOf name)], .var temporary,
        [.aliased (.var temporary) (.contentOf name)]⟩
  | _, _ => return .pure (← job.operand scope operand)

/-- The value of a call, unless the call is dropped. -/
def call (job : Job) (scope : Scope) (site : Call) (instr : Instr) :
    Lower (Option Computed) := do
  match ← job.calleeOf site instr with
  | none => return none
  | some function =>
      let operands ← job.operandsOf site instr
      let temporaries := (← get).temporaries
      let args ← Lower.check (operands.zipIdx.mapM fun (operand, position) =>
        job.pass scope temporaries operand position)
      return some ⟨args.flatMap Computed.before, .call function (args.map Computed.value),
        args.flatMap Computed.after⟩

end Job

end GotoFree
