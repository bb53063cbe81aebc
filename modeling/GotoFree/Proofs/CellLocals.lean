import GotoFree.Proofs.Accepted
import GotoFree.Proofs.ArgumentVector
import GotoFree.Proofs.BarredReasons

/-!
# Locals in cells

A local with a cell may be read and assigned anywhere, and its object can be replaced by another
one. So a block whose instructions mention such locals only is not rejected for a binding, and
leaves the scope as it was (`Job.bars_block`).
-/

namespace GotoFree

open Target (Script)

namespace Job

open Lower Rejection

variable {job : Job} {scope : Scope} {instr : Instr} {name : String}

/-- A declared local has a cell in a scope. -/
structure IsCell (job : Job) (scope : Scope) (name : String) : Prop where
  declared : (job.method.localType? name).isSome = true
  bound : scope.binding? name = some .mutable

/-- A local in a cell has a type. -/
theorem IsCell.exists_localType (cell : job.IsCell scope name) :
    ∃ type, job.localType name = .ok type := by
  obtain ⟨type, declared⟩ := Option.isSome_iff_exists.1 cell.declared
  exact ⟨type, by simp [localType, declared]⟩

/-- A local in a cell is found with that binding. -/
theorem IsCell.bindingOf_eq (cell : job.IsCell scope name) :
    job.bindingOf scope name = .ok .mutable := by
  simp [bindingOf, cell.bound]

/-- The value of a local in a cell is what the cell holds. -/
theorem IsCell.valueOf_eq (cell : job.IsCell scope name) :
    job.valueOf scope name = .ok (.contentOf name) := by
  simp [valueOf, cell.bindingOf_eq, Binding.valueOf]

/-- A value goes into the cell of a local, and the scope stays as it is. -/
theorem IsCell.store_eq (cell : job.IsCell scope name) {value : Target.Expr} :
    job.store scope name value = .ok ([Script.assign name value], scope) := by
  simp [store, cell.bound]

/-- An operand has a value if the local in it is in a cell. -/
theorem exists_operand {operand : Operand}
    (cells : ∀ name, operand.var? = some name → job.IsCell scope name) :
    ∃ value, job.operand scope operand = .ok value := by
  cases operand with
  | var name => exact ⟨_, (cells name rfl).valueOf_eq⟩
  | int | bool | null => exact ⟨_, rfl⟩

/-- An argument is passed if the local in it is in a cell. -/
theorem exists_pass {temporaries : Temporaries} {operand : Operand} {position : Nat}
    (cells : ∀ name, operand.var? = some name → job.IsCell scope name) :
    ∃ computed, job.pass scope temporaries operand position = .ok computed := by
  obtain ⟨value, isValue⟩ := exists_operand cells
  cases operand with
  | var name =>
      obtain ⟨type, isType⟩ := (cells name rfl).exists_localType
      cases reference : type.isReference <;>
        simp [pass, isObjectCell, (cells name rfl).bound, isType, reference, isValue, Operand.var?]
  | int | bool | null => exact ⟨_, rfl⟩

/-! ## Fields and allocations -/

/-- The slot of a field is not looked up among bindings. -/
theorem excludes_slotOf {field : FieldRef} {possibleTypes : SortedSet String} :
    Excludes IsBindingFault (job.slotOf field possibleTypes instr) := by
  unfold slotOf
  split
  · exact .ok
  · exact .error (not_isBindingFault_unsupported (by simp))

/-- The object of a cell has a place for a new one. -/
theorem bars_openField {base : String} (cell : job.IsCell scope base) {field : FieldRef}
    {possibleTypes : SortedSet String} :
    Bars IsBindingFault (job.openField scope base field possibleTypes instr) fun access =>
      access.owner.isCell = true := by
  unfold openField
  refine (Bars.check excludes_slotOf).bind fun place _ => ?_
  refine (Bars.of_succeeds (.check cell.bindingOf_eq rfl)).bind fun binding isCell => ?_
  subst isCell
  exact Bars.fresh.bind fun _ _ => Bars.fresh.bind fun _ _ => .pure rfl

/-- A write blames the owner only if that is not a cell. -/
theorem write_ne_fixedOwner {model : ObjectModel} {handle : Handle} {owner : Owner}
    {value : Target.Expr} (isCell : owner.isCell = true) :
    model.write handle owner value ≠ .error (.fixedOwner name) := by
  unfold ObjectModel.write
  cases model with
  | mutable => exact nofun
  | functional =>
      simp only [isCell, Bool.not_true, Bool.false_eq_true, if_false]
      split <;> exact nofun

/-- A store into a field of a local in a cell fails for no binding. -/
theorem bars_storeField {base : String} (cell : job.IsCell scope base) {field : FieldRef}
    {possibleTypes : SortedSet String} {value : Target.Expr} :
    Bars IsBindingFault (job.storeField scope base field possibleTypes value instr)
      fun _ => True := by
  unfold storeField
  refine (bars_openField cell).bind fun access isCell => ?_
  split
  · exact .pure trivial
  · exact .defect
  · next reason inside fails =>
    cases reason with
    | fixedOwner => exact absurd fails (write_ne_fixedOwner isCell)
    | slotOutsideObject => exact absurd rfl inside

/-- Allocating an object reads no local. -/
theorem excludes_allocate {className : String} :
    Excludes IsBindingFault (job.allocate className instr) := by
  unfold allocate
  split
  · exact .ok
  · exact .error (not_isBindingFault_unsupported (by simp))

/-- A path from a local in a cell fails for no binding. -/
theorem excludes_followPath {path : AccessPath} (cell : job.IsCell scope path.base) :
    Excludes IsBindingFault (job.followPath scope path instr) := by
  unfold followPath
  rw [cell.valueOf_eq, ok_bind]
  exact .foldlM fun _ _ _ => excludes_slotOf.bind fun _ _ => .ok

/-! ## Calls -/

/-- Asking for a method reads no local. -/
theorem bars_requestCallee {callee : MethodId} :
    Bars IsBindingFault (job.requestCallee callee) fun _ => True := by
  unfold requestCallee
  split
  · exact .request
  · exact .reject not_isBindingFault_internal

/-- A dispatch table is built without locals. -/
theorem excludes_dispatchTable {site : Call} :
    Excludes IsBindingFault (job.dispatchTable site instr) := by
  unfold dispatchTable
  dsimp only
  split
  · exact .error not_isBindingFault_internal
  · refine .foldlM fun table className _ => ?_
    split
    · exact .ok
    · exact .error (not_isBindingFault_unsupported (by simp))

/-- The width of a receiver is found without locals. -/
theorem excludes_receiverWidth {site : Call} :
    Excludes IsBindingFault (job.receiverWidth site instr) := by
  unfold receiverWidth
  refine Excludes.bind (.mapM fun className _ => ?_) fun widths _ => ?_
  · split
    · exact .ok
    · exact .error not_isBindingFault_internal
  · split
    · exact .ok
    · exact .error (not_isBindingFault_unsupported (by simp))

/-- An arm of a dispatch function is built without locals of the method. -/
theorem bars_dispatchArm {tag : Target.Expr} {args : List Target.Expr} {callee : MethodId}
    {classes : SortedSet String} :
    Bars IsBindingFault (job.dispatchArm tag args callee classes) fun _ => True := by
  unfold dispatchArm
  refine (Bars.mapM fun className _ => ?_).bind fun tags _ => ?_
  · split
    · exact .pure trivial
    · exact .reject not_isBindingFault_internal
  · refine bars_requestCallee.bind fun function _ => ?_
    split
    · exact .pure trivial
    · exact .defect

/-- A dispatch function is built without locals of the method. -/
theorem bars_dispatch {site : Call} {table : DispatchTable} :
    Bars IsBindingFault (job.dispatch site table instr) fun _ => True := by
  unfold dispatch
  refine (Bars.check excludes_receiverWidth).bind fun width _ => ?_
  refine (Bars.of_succeeds .get).bind fun progress _ => ?_
  exact (Bars.mapM fun entry _ => bars_dispatchArm).bind fun arms _ =>
    (Bars.of_succeeds .addHelper).bind fun _ _ => .pure trivial

/-- The function of a call is found without locals. -/
theorem bars_calleeOf {site : Call} :
    Bars IsBindingFault (job.calleeOf site instr) fun _ => True := by
  have noBody : ¬ IsBindingFault (job.unsupported "call to a method without a body" instr []) :=
    not_isBindingFault_unsupported (by simp)
  have requested {callee : MethodId} :
      Bars IsBindingFault (some <$> job.requestCallee callee) fun _ => True :=
    bars_requestCallee.bind fun _ _ => .pure trivial
  unfold calleeOf
  cases site.kind with
  | static =>
      dsimp only
      split
      · exact requested
      · exact .reject noBody
  | special =>
      dsimp only
      split
      · exact requested
      · split
        · exact (Bars.of_succeeds .warn).bind fun _ _ => .pure trivial
        · exact .reject noBody
  | virtual =>
      refine (Bars.check excludes_dispatchTable).bind fun table _ => ?_
      split
      · exact requested
      · exact bars_dispatch.bind fun _ _ => .pure trivial

/-- The operands of a call are collected without reading them. -/
theorem excludes_operandsOf {site : Call} :
    Excludes IsBindingFault (job.operandsOf site instr) := by
  unfold operandsOf
  split
  · exact .ok
  · exact .ok
  · exact .error (not_isBindingFault_malformed (by simp) (by simp))

/-- The locals in the operands of a call are those of the call. -/
theorem mem_locals_of_operandsOf {site : Call} {operands : List Operand}
    (made : job.operandsOf site instr = .ok operands) {operand : Operand}
    (member : operand ∈ operands) (is : operand.var? = some name) : name ∈ site.locals := by
  have passed (inside : operand ∈ site.args) : name ∈ site.locals :=
    List.mem_append_right _ (List.mem_filterMap.2 ⟨operand, inside, is⟩)
  unfold operandsOf at made
  split at made
  · cases made
    exact passed member
  · next receiver isReceiver _ =>
    cases made
    rcases List.mem_cons.1 member with rfl | member
    · cases is
      exact List.mem_append_left _ (Option.mem_toList.2 isReceiver)
    · exact passed member
  · cases made

/-- A call fails for no binding if its locals are in cells. -/
theorem bars_call {site : Call} (cells : ∀ name ∈ site.locals, job.IsCell scope name) :
    Bars IsBindingFault (job.call scope site instr) fun _ => True := by
  unfold call
  refine bars_calleeOf.bind fun callee _ => ?_
  cases callee with
  | none => exact .pure trivial
  | some function =>
      refine (Bars.check excludes_operandsOf).bind fun operands made => ?_
      refine (Bars.of_succeeds .get).bind fun progress _ => ?_
      have passed : ∀ entry ∈ operands.zipIdx, ∃ computed,
          job.pass scope progress.temporaries entry.1 entry.2 = .ok computed ∧ True := by
        rintro ⟨operand, position⟩ member
        obtain ⟨computed, passes⟩ := exists_pass fun name is =>
          cells name (mem_locals_of_operandsOf made (List.fst_mem_of_mem_zipIdx member) is)
        exact ⟨computed, passes, trivial⟩
      obtain ⟨args, made, -⟩ := exists_mapM_ok passed
      exact (Bars.of_succeeds (.check made trivial)).bind fun _ (_ : True) => .pure trivial

/-! ## Instructions -/

/-- The value of an operand is there. -/
theorem bars_operand {operand : Operand}
    (cells : ∀ name, operand.var? = some name → job.IsCell scope name) :
    Bars IsBindingFault (Lower.check (job.operand scope operand)) fun _ => True := by
  obtain ⟨value, made⟩ := exists_operand cells
  exact .of_succeeds (.check made trivial)

theorem bars_valueOf (cell : job.IsCell scope name) :
    Bars IsBindingFault (Lower.check (job.valueOf scope name)) fun _ => True :=
  .of_succeeds (.check cell.valueOf_eq trivial)

/-- An expression fails for no binding if its locals are in cells. -/
theorem bars_expr {value : Expr} (cells : ∀ name ∈ value.locals, job.IsCell scope name) :
    Bars IsBindingFault (job.expr scope instr value) fun _ => True := by
  cases value with
  | use operand | unary op operand | newArray element operand =>
      refine (bars_operand fun name is => cells name ?_).bind fun _ _ => .pure trivial
      simpa [Expr.locals] using is
  | binary op left right =>
      refine (bars_operand fun name is => cells name ?_).bind fun _ _ =>
        (bars_operand fun name is => cells name ?_).bind fun _ _ => .pure trivial
      all_goals simp [Expr.locals, is]
  | fieldRead base field possibleTypes =>
      exact (bars_openField (cells base (by simp [Expr.locals]))).bind fun _ _ => .pure trivial
  | arrayRead base index =>
      refine (bars_valueOf (cells base (by simp [Expr.locals]))).bind fun _ _ =>
        (bars_operand fun name is => cells name ?_).bind fun _ _ => .pure trivial
      simp [Expr.locals, is]
  | arrayLength base =>
      exact (bars_valueOf (cells base (by simp [Expr.locals]))).bind fun _ _ => .pure trivial
  | new className => exact (Bars.check excludes_allocate).bind fun _ _ => .pure trivial
  | call site =>
      refine (bars_call cells).bind fun computed _ => ?_
      cases computed with
      | none => exact .reject not_isBindingFault_internal
      | some computed => exact .pure trivial
  | nondet => exact .pure trivial
  | cast operand type =>
      simp only [expr]
      split
      · refine (bars_operand fun name is => cells name ?_).bind fun _ _ => .pure trivial
        simpa [Expr.locals] using is
      · exact .reject (not_isBindingFault_unsupported (by simp))
  | unmodelled => exact .reject (not_isBindingFault_unsupported (by simp))

/-- Nothing is introduced where a value is stored: the local has its cell already. -/
theorem bars_assign {value : Target.Expr} {place : Place}
    (cells : ∀ name, name ∈ place.locals ∨ place = .var name → job.IsCell scope name) :
    Bars IsBindingFault (job.assign scope instr value place) fun result => result.2.1 = scope := by
  cases place with
  | var name =>
      refine (Bars.of_succeeds (.check (cells name (.inr rfl)).store_eq rfl)).bind ?_
      rintro _ rfl
      exact .pure rfl
  | field base field possibleTypes =>
      exact (bars_storeField (cells base (by simp [Place.locals]))).bind fun _ _ => .pure rfl
  | arrayElement base index =>
      refine (bars_valueOf (cells base (by simp [Place.locals]))).bind fun _ _ =>
        (bars_operand fun name is => cells name ?_).bind fun _ _ => .pure rfl
      simp [Place.locals, is]

/-- No name is found for an argument that the method does not have. -/
theorem bars_nameOfSource {source : Source} (lacks : job.method.hasSource source = false) :
    Bars IsBindingFault (job.nameOfSource source instr) fun _ => False := by
  rw [nameOfSource, lacks, if_neg Bool.false_ne_true]
  exact .reject (not_isBindingFault_malformed (by simp [siteText]) (by simp [siteText]))

/-- An instruction fails for no binding if the locals that it mentions are in cells. -/
theorem bars_plainInstr (cells : ∀ name, instr.Mentions name → job.IsCell scope name) :
    Bars IsBindingFault (job.plainInstr scope instr) fun result => result.2 = scope := by
  simp only [Instr.mentions_iff] at cells
  cases instr with
  | assign target value =>
      refine (bars_expr fun name member => cells name ?_).bind fun _ _ =>
        (bars_assign fun name member => cells name ?_).bind fun _ same => .pure same
      · simp [Instr.uses, member]
      · rcases member with member | rfl
        · simp [Instr.uses, member]
        · exact .inr rfl
  | call site =>
      refine (bars_call fun name member => cells name ?_).bind fun computed _ => ?_
      · simp [Instr.uses, member]
      · cases computed with
        | none => exact .pure rfl
        | some computed => exact .pure rfl
  | nop unreachable => cases unreachable <;> exact .pure rfl
  | aliased left right =>
      refine (Bars.check (excludes_followPath (cells _ ?_))).bind fun _ _ =>
        (Bars.check (excludes_followPath (cells _ ?_))).bind fun _ _ => .pure rfl
      all_goals simp [Instr.uses]
  | throw => exact .reject (not_isBindingFault_unsupported (by simp))
  | identity | branch | goto | ret => exact .reject not_isBindingFault_internal

/-- A return fails for no binding if the local that it returns is in a cell. -/
theorem bars_ret {id : BlockId} {value : Option Operand}
    (cells : ∀ operand, value = some operand → ∀ name, operand.var? = some name →
      job.IsCell scope name) : Bars IsBindingFault (job.ret scope id value) fun _ => True := by
  have recorded : Bars IsBindingFault (job.record ⟨id, .exit⟩) fun _ => True :=
    .of_succeeds (succeeds_record _)
  unfold ret
  cases value with
  | none =>
      exact (Bars.pure trivial).bind fun _ (_ : True) => recorded.bind fun _ _ => .pure trivial
  | some operand =>
      exact (bars_operand (cells operand rfl)).bind fun _ _ =>
        recorded.bind fun _ _ => .pure trivial

/-- The locals that an instruction mentions have cells, apart from one that would take an argument
that the method does not have. -/
def FindsCells (job : Job) (scope : Scope) (instr : Instr) : Prop :=
  ∀ name, instr.Mentions name → job.IsCell scope name ∨
    ∃ source, instr = .identity name source ∧ job.method.hasSource source = false

/-- An instruction in its block fails for no binding, and leaves the scope as it is. -/
theorem bars_instr {id : BlockId} (finds : job.FindsCells scope instr) :
    Bars IsBindingFault (job.instr id scope instr) fun lowered => lowered.scope = scope := by
  have plain (other : ∀ target source, instr ≠ .identity target source) (name : String)
      (mentions : instr.Mentions name) : job.IsCell scope name := by
    refine (finds name mentions).resolve_right ?_
    rintro ⟨source, same, -⟩
    exact other name source same
  unfold Job.instr
  split
  · next condition =>
    refine (bars_expr fun name member => plain (by simp) name ?_).bind fun _ _ => .pure rfl
    simp [Instr.mentions_iff, Instr.uses, member]
  · exact .pure rfl
  · next value =>
    refine (bars_ret fun operand same name is => plain (by simp) name ?_).bind fun _ _ => .pure rfl
    simp [Instr.mentions_iff, Instr.uses, same, is]
  · next target source =>
    split
    · exact .pure rfl
    · next unbound =>
      rcases finds target (Instr.mentions_identity.2 rfl) with cell | ⟨_, ⟨⟩, lacks⟩
      · exact absurd (by simp [cell.bound]) unbound
      · exact (bars_nameOfSource lacks).bind fun _ none => none.elim
  · next other =>
    exact (bars_plainInstr (plain other)).bind fun _ same => .pure same

/-- Instructions in a row fail for no binding, and leave the scope as it is. -/
theorem bars_instrs {id : BlockId} {index : Nat} {instrs : List Instr}
    (finds : ∀ instr ∈ instrs, job.FindsCells scope instr) :
    Bars IsBindingFault (job.instrs id index scope instrs) fun lowered =>
      lowered.scope = scope := by
  induction instrs generalizing index with
  | nil => exact .pure rfl
  | cons first rest ih =>
      refine (Bars.of_succeeds .enter).bind fun _ (_ : True) => ?_
      refine (bars_instr (finds first (by simp))).bind fun head same => ?_
      rw [same]
      exact (ih fun instr member => finds instr (List.mem_cons_of_mem _ member)).bind
        fun _ same => .pure same

/-! ## Blocks -/

/-- Nothing is introduced inside of a method, and every local that is mentioned has its cell. -/
structure HasCells (job : Job) (scope : Scope) : Prop where
  blocks : job.plan.blocks = .empty
  finds : ∀ instr ∈ job.method.instrs, job.FindsCells scope instr

/-- The function of a loop gets the cells of the scope around it. -/
theorem HasCells.insideLoop (has : job.HasCells scope) (frame : LoopFrame) :
    job.HasCells (scope.insideLoop frame) :=
  ⟨has.blocks, fun instr member name mentions =>
    (has.finds instr member name mentions).imp_left fun cell => ⟨cell.declared, cell.bound⟩⟩

/-- A block fails for no binding if all its locals are in cells. -/
theorem bars_block (has : job.HasCells scope) {id : BlockId} :
    Bars IsBindingFault (job.block scope id) fun lowered => lowered.scope = scope := by
  unfold Job.block
  split
  · exact .reject not_isBindingFault_internal
  · next block found =>
    have opens : job.openBlock id (block.instrs.filterMap Instr.defines?) scope
        ((job.plan.blocks.get? id).getD .empty).entries = .ok ([], scope) := by
      rw [has.blocks]
      rfl
    refine (Bars.of_succeeds (.check opens rfl)).bind ?_
    rintro _ rfl
    refine (bars_instrs fun instr member => has.finds instr ?_).bind fun _ same => .pure same
    exact List.mem_flatMap.2 ⟨block, List.mem_of_find?_eq_some found, member⟩

end Job

end GotoFree
