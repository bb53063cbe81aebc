import GotoFree.Lowering

/-!
# Jobs that are alike

Lowering looks at a method and its program through a few questions only. Two jobs for which these
have the same answers (`Job.Alike`) are lowered to the same code, step by step
(`Job.Alike.tree_eq`).
-/

namespace GotoFree

open Target (Script Stmt)

namespace Job

/-- All that lowering asks of a method and its program has the same answers. -/
structure Alike (one other : Job) : Prop where
  id : one.id = other.id
  function : one.function = other.function
  plan : one.plan = other.plan
  flags : one.flags = other.flags
  layout : one.setting.layout = other.setting.layout
  model : one.setting.model = other.setting.model
  locals : one.method.locals = other.method.locals
  returnType : one.method.returnType = other.method.returnType
  entry : one.method.entry = other.method.entry
  hasSource : one.method.hasSource = other.method.hasSource
  incoming : one.method.incoming = other.method.incoming
  block? : one.method.block? = other.method.block?
  methodTaking : one.setting.program.methodTaking = other.setting.program.methodTaking
  resolve : one.setting.program.resolve = other.setting.program.resolve
  /-- What a call learns of the method that it has found. -/
  callee : ∀ id, (one.setting.program.method? id).map
      (fun method => (method.className, method.name, method.returnType)) =
    (other.setting.program.method? id).map
      fun method => (method.className, method.name, method.returnType)

namespace Alike

variable {one other : Job}

section Steps

variable (alike : one.Alike other)
include alike

/-! ## Values -/

theorem unsupported_eq : one.unsupported = other.unsupported := by
  unfold unsupported
  rw [alike.id]

theorem localType_eq : one.localType = other.localType := by
  funext name
  simp only [localType, Method.localType?, alike.locals, alike.id]

theorem bindingOf_eq : one.bindingOf = other.bindingOf := by
  unfold bindingOf
  rw [alike.id]

theorem valueOf_eq : one.valueOf = other.valueOf := by
  unfold valueOf
  rw [alike.bindingOf_eq]

theorem operand_eq : one.operand = other.operand := by
  funext scope operand
  cases operand <;> simp only [Job.operand, alike.valueOf_eq]

theorem operandTypeText_eq : one.operandTypeText = other.operandTypeText := by
  funext operand
  cases operand <;> simp only [operandTypeText, Method.localType?, alike.locals]

theorem store_eq : one.store = other.store := by
  unfold store
  rw [alike.id]

/-! ## Fields -/

theorem slotOf_eq : one.slotOf = other.slotOf := by
  unfold slotOf
  rw [alike.layout, alike.unsupported_eq]

theorem openField_eq : one.openField = other.openField := by
  unfold openField
  rw [alike.slotOf_eq, alike.bindingOf_eq]

theorem fieldValue_eq : one.fieldValue = other.fieldValue := by
  unfold fieldValue
  rw [alike.openField_eq, alike.model]

theorem storeField_eq : one.storeField = other.storeField := by
  unfold storeField
  rw [alike.openField_eq, alike.model, alike.unsupported_eq]

theorem allocate_eq : one.allocate = other.allocate := by
  unfold allocate
  rw [alike.layout, alike.model, alike.unsupported_eq]

theorem followPath_eq : one.followPath = other.followPath := by
  unfold followPath
  rw [alike.valueOf_eq, alike.slotOf_eq, alike.model]

/-! ## Calls -/

theorem requestCallee_eq : one.requestCallee = other.requestCallee := by
  funext callee
  have same := alike.callee callee
  unfold requestCallee
  cases here : one.setting.program.method? callee <;>
    cases there : other.setting.program.method? callee <;>
      simp_all [Lower.request]

theorem siteText_eq : one.siteText = other.siteText := by
  unfold siteText
  rw [alike.id]

theorem dispatchTable_eq : one.dispatchTable = other.dispatchTable := by
  unfold dispatchTable
  rw [alike.siteText_eq, alike.resolve, alike.unsupported_eq]

theorem receiverWidth_eq : one.receiverWidth = other.receiverWidth := by
  unfold receiverWidth
  rw [alike.siteText_eq, alike.layout, alike.unsupported_eq]

theorem dispatchArm_eq : one.dispatchArm = other.dispatchArm := by
  unfold dispatchArm
  rw [alike.layout, alike.requestCallee_eq]

theorem dispatchType_eq : one.dispatchType = other.dispatchType := by
  funext table
  unfold dispatchType
  cases table.keys.getLast? with
  | none => rfl
  | some last =>
      have same := alike.callee last
      cases here : one.setting.program.method? last <;>
        cases there : other.setting.program.method? last <;>
          simp_all

theorem dispatch_eq : one.dispatch = other.dispatch := by
  unfold dispatch
  rw [alike.receiverWidth_eq, alike.model, alike.dispatchArm_eq, alike.dispatchType_eq]

theorem calleeOf_eq : one.calleeOf = other.calleeOf := by
  unfold calleeOf
  rw [alike.methodTaking, alike.resolve, alike.unsupported_eq, alike.requestCallee_eq, alike.id,
    alike.dispatchTable_eq, alike.dispatch_eq]

theorem operandsOf_eq : one.operandsOf = other.operandsOf := by
  unfold operandsOf
  rw [alike.siteText_eq]

theorem isObjectCell_eq : one.isObjectCell = other.isObjectCell := by
  funext scope operand
  cases operand <;> simp only [isObjectCell, alike.localType_eq]

theorem pass_eq : one.pass = other.pass := by
  unfold pass
  rw [alike.isObjectCell_eq, alike.operand_eq]

theorem call_eq : one.call = other.call := by
  unfold call
  rw [alike.calleeOf_eq, alike.operandsOf_eq, alike.pass_eq]

/-! ## Instructions -/

theorem expr_eq : one.expr = other.expr := by
  funext scope instr expr
  cases expr <;>
    simp only [Job.expr, alike.operand_eq, alike.fieldValue_eq, alike.valueOf_eq,
      alike.allocate_eq, alike.call_eq, alike.siteText_eq, alike.unsupported_eq,
      alike.operandTypeText_eq]

theorem assign_eq : one.assign = other.assign := by
  funext scope instr value place
  cases place <;>
    simp only [assign, alike.store_eq, alike.storeField_eq, alike.valueOf_eq, alike.operand_eq]

theorem nameOfSource_eq : one.nameOfSource = other.nameOfSource := by
  unfold nameOfSource
  rw [alike.hasSource, alike.incoming, alike.siteText_eq]

theorem plainInstr_eq : one.plainInstr = other.plainInstr := by
  funext scope instr
  unfold plainInstr
  rw [alike.expr_eq, alike.assign_eq, alike.call_eq, alike.unsupported_eq,
    alike.operandTypeText_eq, alike.followPath_eq, alike.siteText_eq]

/-! ## Blocks -/

theorem hasControlCell_eq : one.hasControlCell = other.hasControlCell := by
  unfold hasControlCell
  rw [alike.flags]

theorem emptyReturn_eq : one.emptyReturn = other.emptyReturn := by
  unfold emptyReturn
  rw [alike.returnType]

theorem record_eq : one.record = other.record := by
  unfold record
  rw [alike.flags]

theorem jump_eq : one.jump = other.jump := by
  unfold jump
  rw [alike.record_eq, alike.flags, alike.id, alike.emptyReturn_eq]

theorem openBlock_eq : one.openBlock = other.openBlock := by
  funext id defined scope locals
  induction locals generalizing scope with
  | nil => rfl
  | cons first rest ih =>
      obtain ⟨name, binding⟩ := first
      simp only [openBlock, ih, alike.localType_eq, alike.id]

theorem returnAliases_eq : one.returnAliases = other.returnAliases := by
  unfold returnAliases
  rw [alike.incoming]

theorem ret_eq : one.ret = other.ret := by
  unfold ret
  rw [alike.operand_eq, alike.record_eq, alike.returnAliases_eq]

theorem instr_eq : one.instr = other.instr := by
  unfold Job.instr
  rw [alike.expr_eq, alike.ret_eq, alike.nameOfSource_eq, alike.store_eq, alike.plainInstr_eq]

theorem instrs_eq : one.instrs = other.instrs := by
  funext id index scope list
  induction list generalizing index scope with
  | nil => rfl
  | cons first rest ih => simp only [instrs, ih, alike.id, alike.instr_eq]

theorem block_eq : one.block = other.block := by
  unfold block
  rw [alike.block?, alike.plan, alike.id, alike.openBlock_eq, alike.instrs_eq]

/-! ## Loops -/

theorem loopFrame_eq : one.loopFrame = other.loopFrame := by
  unfold loopFrame loopParams Method.incomingNames
  rw [alike.function, alike.hasControlCell_eq, alike.incoming]

theorem recurseAfter_eq : one.recurseAfter = other.recurseAfter := by
  unfold recurseAfter
  rw [alike.id]

theorem returnAfter_eq : one.returnAfter = other.returnAfter := by
  unfold returnAfter
  rw [alike.emptyReturn_eq]

/-! ## Trees -/

theorem closed_eq : one.closed = other.closed := by
  unfold closed
  rw [alike.emptyReturn_eq]

theorem alternativeTest_eq : one.alternativeTest = other.alternativeTest := by
  unfold alternativeTest
  rw [alike.id, alike.entry]

theorem introduceEntry_eq : one.introduceEntry = other.introduceEntry := by
  funext scope locals
  induction locals generalizing scope with
  | nil => rfl
  | cons first rest ih =>
      obtain ⟨name, binding⟩ := first
      simp only [introduceEntry, alike.incoming, ih, alike.localType_eq]

end Steps

mutual

/-- Alike jobs lower a tree to the same code. -/
theorem tree_eq (alike : one.Alike other) {scope : Scope} {tree : Tree} :
    one.tree scope tree = other.tree scope tree := by
  cases tree with
  | jump label coord =>
      rw [Job.tree, Job.tree, alike.block_eq, alike.jump_eq]
  | conditional label taken notTaken =>
      simp only [Job.tree, alike.block_eq, alike.id, arm_eq alike]
  | sequence label elems =>
      rw [Job.tree, Job.tree, elems_eq alike]
  | loop label entries body =>
      simp only [Job.tree, alike.loopFrame_eq, tree_eq alike, alike.closed_eq,
        alike.recurseAfter_eq, alike.returnAfter_eq]
  | merge label alternatives incoming =>
      rw [Job.tree, Job.tree, alternatives_eq alike]

theorem arm_eq (alike : one.Alike other) {scope : Scope} {arm : Arm} :
    one.arm scope arm = other.arm scope arm := by
  cases arm with
  | jump coord jumps => rw [Job.arm, Job.arm, alike.jump_eq]
  | nested tree => rw [Job.arm, Job.arm, tree_eq alike]

theorem elems_eq (alike : one.Alike other) {scope : Scope} {elems : List Tree} :
    one.elems scope elems = other.elems scope elems := by
  cases elems with
  | nil => rfl
  | cons tree rest => simp only [Job.elems, tree_eq alike, elems_eq alike]

theorem alternatives_eq (alike : one.Alike other) {scope : Scope} {merge : Label}
    {alternatives : List Tree} :
    one.alternatives scope merge alternatives = other.alternatives scope merge alternatives := by
  cases alternatives with
  | nil => rfl
  | cons tree rest =>
      simp only [Job.alternatives, alike.alternativeTest_eq, tree_eq alike, alternatives_eq alike]

end

end Alike

end Job

end GotoFree
