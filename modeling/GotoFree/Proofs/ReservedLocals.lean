import GotoFree.Proofs.Aliases
import GotoFree.Proofs.Arguments
import GotoFree.Proofs.ConfinedCode
import GotoFree.Proofs.UnshadowedTrees

/-!
# Locals that are reserved for an argument

A method may do nothing with a local but copy one argument into it, wherever and however often
(`Method.Reserves`). What its instructions become then binds the local only to the argument, or to a
new cell with it, and uses the cell for its content only (`Job.yields_confined_instr`).
-/

namespace GotoFree

open Target (Script Secrets Step Stmt)

/-- A method copies one argument into a local and does nothing else to it, and the local is not
introduced with another value: if the entry makes a cell for it, it is the last local that the
argument is copied into, and if a block does, the argument is copied into it there. -/
structure Method.Reserves (method : Method) (model : ObjectModel) (plan : BindingPlan)
    (target : String) (source : Source) : Prop where
  copies : ∀ instr ∈ method.instrs, instr.defines? = some target → instr = .identity target source
  /-- In the functional model a write to a field makes a new object for the local. -/
  fields : model = .functional → ∀ field possibleTypes value,
    Instr.assign (.field target field possibleTypes) value ∉ method.instrs
  last : (target, .mutable) ∈ plan.entry.entries → method.argumentLocals.get? source = some target
  introduced : ∀ id block, method.block? id = some block →
    (target, .mutable) ∈ ((plan.blocks.get? id).getD .empty).entries →
      target ∈ block.instrs.filterMap Instr.defines?

namespace Method

variable {method : Method} {model : ObjectModel} {plan : BindingPlan} {target : String}
  {source : Source} {param : Param}

/-- The local that stands for a source is one that the source is copied into. -/
theorem identity_mem_instrs (found : method.argumentLocals.get? source = some target) :
    .identity target source ∈ method.instrs := by
  rw [argumentLocals, SortedMap.ofList, SortedMap.get?_foldl_insert, SortedMap.get?_empty,
    Option.or_none, Option.map_eq_some_iff] at found
  obtain ⟨entry, isEntry, rfl⟩ := found
  have isSource : entry.1 = source := by simpa using List.find?_some isEntry
  obtain ⟨instr, among, made⟩ :=
    List.mem_filterMap.1 (List.mem_reverse.1 (List.mem_of_find?_eq_some isEntry))
  split at made
  · cases made
    exact isSource ▸ among
  · cases made

/-- A parameter is copied into the last local of its source. -/
theorem target_of_incoming (member : param ∈ method.incoming) :
    param.target = method.argumentLocals.get? param.source := by
  obtain ⟨source, type, rfl⟩ := exists_paramAt member
  rfl

namespace Reserves

variable (reserves : method.Reserves model plan target source)

include reserves

/-- The entry can introduce the local with no other argument. -/
theorem source_of_target (member : param ∈ method.incoming)
    (isTarget : param.target = some target) : param.source = source := by
  rw [target_of_incoming member] at isTarget
  cases reserves.copies _ (identity_mem_instrs isTarget) rfl
  rfl

/-- A cell that the entry makes for the local is introduced with an argument. -/
theorem exists_last (argument : ∃ param ∈ method.incoming, param.source = source)
    (member : (target, .mutable) ∈ plan.entry.entries) :
    ∃ param ∈ method.incoming, param.target = some target := by
  obtain ⟨param, among, isSource⟩ := argument
  exact ⟨param, among, by rw [target_of_incoming among, isSource, reserves.last member]⟩

end Reserves

end Method

namespace Job

/-- Cells that the local of an argument stands for are secret, and their content is the argument. -/
structure Entrusts (job : Job) (target : String) (source : Source) (secrets : Secrets) : Prop where
  hygienic : job.Hygienic
  reserves : job.method.Reserves job.setting.model job.plan target source
  argument : ∃ param ∈ job.method.incoming, param.source = source
  cell_iff : ∀ name, secrets.cell name ↔ name = target ∧ (target, .mutable) ∈ job.plan.locals
  content_iff : ∀ name, secrets.content name ↔
    name = target ∧ (target, .const) ∈ job.plan.locals ∨
      ∃ param ∈ job.method.incoming, param.source = source ∧ param.name = name

/-- How names begin that stand neither for a local nor for an argument. -/
def workStems : List String := ["__ctl", "__base_ptr_", "__field_", "__call", "__loop_res_"]

/-- How the names of arguments begin. -/
def incomingStems : List String := ["__this", "__in_", "__arg"]

/-- The stems of arguments are among all stems. -/
theorem incomingStems_subset : incomingStems ⊆ stems := by decide

variable {job : Job} {target : String} {source : Source} {secrets : Secrets} {scope after : Scope}
  {name : String} {binding : Binding} {value : Target.Expr} {instr : Instr} {computed : Computed}
  {steps : Script}

/-- No local is named as lowering names things. -/
theorem Hygienic.not_isMadeUp_local (hygienic : job.Hygienic)
    (member : (name, binding) ∈ job.plan.locals) : ¬ IsMadeUp name := by
  obtain ⟨declared, isDeclared, rfl⟩ := hygienic.declared _ member
  exact hygienic.free declared isDeclared

/-- No argument has the name of a planned local. -/
theorem Hygienic.incoming_notMem_locals (hygienic : job.Hygienic)
    (member : name ∈ job.method.incomingNames) : (name, binding) ∉ job.plan.locals :=
  fun isLocal => hygienic.not_isMadeUp_local isLocal (IsOuter.isMadeUp (.inr member))

/-- A name is no secret. -/
def Ignores (secrets : Secrets) (name : String) : Prop :=
  ¬ secrets.cell name ∧ ¬ secrets.content name

/-- A value keeps secrets, with what stands before it. -/
structure Discreet (secrets : Secrets) (computed : Computed) : Prop where
  before : Script.Confined secrets computed.before
  value : computed.value.Confined secrets

theorem Discreet.pure (confined : value.Confined secrets) : Discreet secrets (.pure value) :=
  ⟨Script.confined_nil, confined⟩

/-- What a return ties is ties only. -/
theorem isAliased_of_mem_returnAliases {stmt : Stmt} (member : stmt ∈ job.returnAliases scope) :
    ∃ left right, stmt = .aliased left right := by
  obtain ⟨param, -, made⟩ := List.mem_filterMap.1 member
  obtain ⟨local_, -, made⟩ := Option.bind_eq_some_iff.1 made
  split at made
  · cases made
    exact ⟨_, _, rfl⟩
  · cases made

theorem confined_default {type : Ty} : type.default.Confined secrets := by
  cases type <;> trivial

/-- A name that is ignored may be bound to a confined value. -/
theorem confined_bindName (inner : value.Confined secrets) (ignored : Ignores secrets name) :
    Script.Confined secrets [Script.bindName name value] :=
  Script.confined_bind.2 (.others inner (List.forall_mem_singleton.2 ignored))

theorem confined_bindCell (inner : value.Confined secrets) (ignored : Ignores secrets name) :
    Script.Confined secrets [Script.bindCell name value] :=
  confined_bindName inner ignored

theorem confined_introduce (inner : value.Confined secrets) (ignored : Ignores secrets name) :
    Script.Confined secrets [binding.introduce name value] := by
  cases binding with
  | mutable => exact confined_bindCell inner ignored
  | const => exact confined_bindName inner ignored

/-- An allocation is confined. -/
theorem confined_allocate {className : String} (made : job.allocate className instr = .ok value) :
    value.Confined secrets := by
  unfold allocate at made
  split at made
  · next tag types _ _ =>
    cases made
    have each : ∀ slot ∈ Target.Expr.int tag :: types.map fun type => type.elim (.int 0) Ty.default,
        slot.Confined secrets := by
      refine List.forall_mem_cons.2 ⟨trivial, fun slot member => ?_⟩
      obtain ⟨type, -, rfl⟩ := List.mem_map.1 member
      cases type with
      | none => trivial
      | some type => exact confined_default
    cases job.setting.model with
    | functional => exact Target.Expr.confinedAll_iff.2 each
    | mutable =>
        refine Target.Expr.confinedAll_iff.2 fun cell member => ?_
        obtain ⟨content, among, rfl⟩ := List.mem_map.1 member
        exact each content among
  · cases made

section Entrusted

variable (entrusts : job.Entrusts target source secrets)

namespace Entrusts

include entrusts

/-- A name that begins with a stem of work is no secret. -/
theorem ignores_of_stem {stem rest : String} (isStem : stem ∈ workStems) :
    Ignores secrets (stem ++ rest) := by
  have among : stem ∈ stems ∧ stem ∉ incomingStems := by
    clear entrusts
    revert stem
    decide
  have isMadeUp : IsMadeUp (stem ++ rest) := isMadeUp_append among.1
  constructor
  · intro isCell
    obtain ⟨same, member⟩ := (entrusts.cell_iff _).1 isCell
    exact entrusts.hygienic.not_isMadeUp_local member (same ▸ isMadeUp)
  · intro isContent
    obtain ⟨same, member⟩ | ⟨param, member, -, same⟩ := (entrusts.content_iff _).1 isContent
    · exact entrusts.hygienic.not_isMadeUp_local member (same ▸ isMadeUp)
    · obtain ⟨own, isOwn, ending, named⟩ :=
        Method.exists_stem_of_incoming (List.mem_map_of_mem member)
      obtain rfl := stem_inj (incomingStems_subset isOwn) among.1 (named.symm.trans same)
      exact among.2 isOwn

/-- The control cell is no secret. -/
theorem ignores_controlCell : Ignores secrets controlCell :=
  @ignores_of_stem _ _ _ _ entrusts "__ctl" "" (by decide)

/-- An argument is no cell. -/
theorem confined_incoming (member : name ∈ job.method.incomingNames) :
    (Target.Expr.var name).Confined secrets := by
  intro isCell
  obtain ⟨rfl, isLocal⟩ := (entrusts.cell_iff _).1 isCell
  exact entrusts.hygienic.incoming_notMem_locals member isLocal

/-- A planned local other than the target is no secret. -/
theorem ignores_local (member : (name, binding) ∈ job.plan.locals) (other : name ≠ target) :
    Ignores secrets name := by
  refine ⟨fun isCell => other ((entrusts.cell_iff _).1 isCell).1, fun isContent => ?_⟩
  obtain ⟨same, -⟩ | ⟨param, among, -, rfl⟩ := (entrusts.content_iff _).1 isContent
  · exact other same
  · exact entrusts.hygienic.incoming_notMem_locals (List.mem_map_of_mem among) member

/-- The local is introduced with the argument. -/
theorem confined_copy {param : Param} (member : (target, binding) ∈ job.plan.locals)
    (among : param ∈ job.method.incoming) (isSource : param.source = source) :
    Script.Confined secrets [binding.introduce target (.var param.name)] := by
  have isContent : secrets.content param.name :=
    (entrusts.content_iff _).2 (.inr ⟨param, among, isSource, rfl⟩)
  cases binding with
  | mutable =>
      change Script.Confined secrets [.bind (.var target) (.mkRef (.var param.name))]
      exact Script.confined_bind.2 (.cell ((entrusts.cell_iff _).2 ⟨rfl, member⟩) isContent)
  | const =>
      change Script.Confined secrets [.bind (.var target) (.var param.name)]
      exact Script.confined_bind.2
        (.content ((entrusts.content_iff _).2 (.inl ⟨rfl, member⟩)) isContent)

/-- The value of a planned local is confined. -/
theorem confined_valueOf (planned : job.Planned scope)
    (found : job.valueOf scope name = .ok value) : value.Confined secrets := by
  obtain ⟨binding, isBinding, same⟩ := bind_eq_ok_iff.1 found
  cases same
  have member := planned.bound name binding (bindingOf_eq_ok_iff.1 isBinding)
  cases binding with
  | mutable => exact Target.Expr.confined_contentOf
  | const =>
      intro isCell
      obtain ⟨rfl, other⟩ := (entrusts.cell_iff _).1 isCell
      cases List.inj_on_of_nodup_map entrusts.hygienic.once member other rfl

/-- An operand is confined. -/
theorem confined_operand (planned : job.Planned scope) {operand : Operand}
    (found : job.operand scope operand = .ok value) : value.Confined secrets := by
  cases operand with
  | var => exact entrusts.confined_valueOf planned found
  | int | bool | null =>
      cases found
      trivial

/-- An argument is passed discreetly. -/
theorem discreet_pass (planned : job.Planned scope) {temporaries : Temporaries} {operand : Operand}
    {position : Nat} (made : job.pass scope temporaries operand position = .ok computed) :
    Discreet secrets computed := by
  rcases pass_cases made with ⟨name, -, -, rfl⟩ | ⟨-, value, isValue, rfl⟩
  · have ignored : Ignores secrets (temporaries.argument position) := by
      rw [Temporaries.argument, String.append_assoc, String.append_assoc]
      exact entrusts.ignores_of_stem (by decide)
    exact ⟨confined_bindName Target.Expr.confined_contentOf ignored, ignored.1⟩
  · exact .pure (entrusts.confined_operand planned isValue)

/-- Another local is stored to. -/
theorem confined_store (planned : job.Planned scope) (other : name ≠ target)
    (confined : value.Confined secrets) (stored : job.store scope name value = .ok (steps, after)) :
    Script.Confined secrets steps := by
  unfold store at stored
  split at stored
  · next bound =>
    cases stored
    exact Script.confined_assign.2
      ⟨(entrusts.ignores_local (planned.bound _ _ bound) other).1, confined⟩
  · cases stored
  · next postponed =>
    cases stored
    exact confined_introduce confined
      (entrusts.ignores_local (planned.postponed _ _ postponed) other)
  · cases stored

end Entrusts

/-! ## Fields -/

section Fields

variable {base : String} {field : FieldRef} {possibleTypes : SortedSet String} {access : Access}

/-- An access keeps secrets: its slot has a name of its own. -/
structure Approaches (secrets : Secrets) (access : Access) : Prop where
  before : Script.Confined secrets access.before
  base : access.handle.base.Confined secrets
  slots : ∀ rest, Ignores secrets (access.handle.cell ++ rest)

include entrusts in
/-- An access to a field approaches its object without touching a secret. -/
theorem Opened.approaches (planned : job.Planned scope)
    (opened : job.Opened scope instr base field possibleTypes access) :
    Approaches secrets access := by
  have slots (rest : String) : Ignores secrets (access.handle.cell ++ rest) := by
    obtain ⟨ending, named⟩ := opened.cell
    rw [named, String.append_assoc]
    exact entrusts.ignores_of_stem (by decide)
  have shape := opened.before
  split at shape
  · obtain ⟨ending, before, isBase⟩ := shape
    have ignored : Ignores secrets ("__base_ptr" ++ "_" ++ ending) :=
      entrusts.ignores_of_stem (by decide)
    refine ⟨?_, isBase ▸ ignored.1, slots⟩
    rw [before]
    exact confined_bindName Target.Expr.confined_contentOf ignored
  · obtain ⟨before, isBase, bound⟩ := shape
    refine ⟨before ▸ Script.confined_nil, ?_, slots⟩
    rw [isBase]
    exact entrusts.confined_valueOf planned (bind_eq_ok_iff.2
      ⟨.const, bindingOf_eq_ok_iff.2 bound, rfl⟩)

variable (approaches : Approaches secrets access)

include approaches

/-- The cell of an access is no secret. -/
theorem Approaches.cell : Ignores secrets access.handle.cell := by
  simpa using approaches.slots ""

theorem Approaches.pattern : Script.Confined secrets
    [.bind access.handle.pattern access.handle.base] := by
  refine Script.confined_bind.2 (.others approaches.base fun name member => ?_)
  rw [(Handle.mem_names_pattern.1 member).2]
  exact approaches.cell

/-- A read of a field is confined. -/
theorem Approaches.read {model : ObjectModel} :
    Script.Confined secrets (model.read access.handle).1 ∧
      (model.read access.handle).2.Confined secrets := by
  refine ⟨approaches.pattern, ?_⟩
  cases model with
  | mutable => exact Target.Expr.confined_contentOf
  | functional => exact approaches.cell.1

/-- A write to a field is confined if the value is. -/
theorem Approaches.write {model : ObjectModel} (confined : value.Confined secrets)
    (owner : model = .functional → ¬ secrets.cell access.owner.name)
    (written : model.write access.handle access.owner value = .ok steps) :
    Script.Confined secrets steps := by
  cases model with
  | mutable =>
      cases written
      exact Script.confined_cons.2 ⟨approaches.pattern,
        Script.confined_assign.2 ⟨approaches.cell.1, confined⟩⟩
  | functional =>
      unfold ObjectModel.write at written
      dsimp only at written
      split at written
      · cases written
      · split at written
        · cases written
        · cases written
          have slots : ∀ name ∈ ObjectModel.slotNames access.handle, Ignores secrets name := by
            intro name member
            obtain ⟨index, -, rfl⟩ := List.mem_map.1 member
            rw [String.append_assoc]
            exact approaches.slots _
          refine Script.confined_cons.2 ⟨Script.confined_bind.2 (.others approaches.base ?_),
            Script.confined_assign.2 ⟨owner rfl, Target.Expr.confinedAll_iff.2 ?_⟩⟩
          · intro name member
            exact slots name (by simpa [Target.Pattern.names] using member)
          · intro component member
            rcases List.mem_or_eq_of_mem_set member with member | rfl
            · obtain ⟨name, among, rfl⟩ := List.mem_map.1 member
              exact (slots name among).1
            · exact confined

end Fields

/-! ## Instructions -/

namespace Entrusts

include entrusts

/-- A call is discreet. -/
theorem yields_discreet_call (planned : job.Planned scope) {site : Call} :
    Lower.Yields (job.call scope site instr) fun answer =>
      ∀ computed ∈ answer, Discreet secrets computed := by
  unfold call
  refine Lower.Yields.skip fun callee => ?_
  split
  · exact .pure nofun
  · refine Lower.Yields.skip fun operands => Lower.Yields.skip fun progress =>
      Lower.Yields.check.bind fun args passed => .pure ?_
    have each : ∀ arg ∈ args, Discreet secrets arg := fun arg member =>
      (exists_of_mem_right (mapM_eq_ok_iff.1 passed) member).elim fun _ found =>
        entrusts.discreet_pass planned found.2
    rintro _ ⟨⟩
    refine ⟨Script.confined_flatMap fun arg member => (each arg member).before,
      .inr (Target.Expr.confinedAll_iff.2 fun value member => ?_)⟩
    obtain ⟨arg, among, rfl⟩ := List.mem_map.1 member
    exact (each arg among).value

/-- An expression is discreet. -/
theorem yields_discreet_expr (planned : job.Planned scope) {expr : Expr} :
    Lower.Yields (job.expr scope instr expr) (Discreet secrets) := by
  have pure {value : Target.Expr} (confined : value.Confined secrets) :
      Lower.Yields (Pure.pure (Computed.pure value) : Lower Computed) (Discreet secrets) :=
    .pure (.pure confined)
  have operand {operand : Operand} : Lower.Yields
      (do return .pure (← job.operand scope operand)) (Discreet secrets) :=
    Lower.Yields.check.bind fun value found => pure (entrusts.confined_operand planned found)
  cases expr with
  | use => exact operand
  | binary op left right =>
      exact Lower.Yields.check.bind fun one isOne => Lower.Yields.check.bind fun other isOther =>
        pure ⟨entrusts.confined_operand planned isOne, entrusts.confined_operand planned isOther⟩
  | unary op inner =>
      refine Lower.Yields.check.bind fun value found => pure ?_
      change value.Confined secrets
      exact entrusts.confined_operand planned found
  | fieldRead base field possibleTypes =>
      refine yields_openField.bind fun access opened => .pure ?_
      have approaches := opened.approaches entrusts planned
      obtain ⟨steps, content⟩ := @Approaches.read _ _ approaches job.setting.model
      exact ⟨Script.confined_append.2 ⟨approaches.before, steps⟩, content⟩
  | arrayRead base index =>
      refine Lower.Yields.check.bind fun array isArray =>
        Lower.Yields.check.bind fun position isPosition => pure ?_
      exact ⟨entrusts.confined_valueOf planned isArray,
        entrusts.confined_operand planned isPosition⟩
  | arrayLength base =>
      refine Lower.Yields.check.bind fun array isArray => pure ?_
      change array.Confined secrets
      exact entrusts.confined_valueOf planned isArray
  | new className => exact Lower.Yields.check.bind fun value made => pure (confined_allocate made)
  | newArray type size =>
      refine Lower.Yields.check.bind fun value found => pure ?_
      change value.Confined secrets
      exact entrusts.confined_operand planned found
  | call site =>
      refine (entrusts.yields_discreet_call planned).bind fun answer each => ?_
      split
      · exact .pure (each _ rfl)
      · exact .reject
  | nondet => exact pure trivial
  | cast _ type =>
      unfold Job.expr
      dsimp only
      split
      · exact operand
      · exact .reject
  | unmodelled => exact .reject

/-- Where a value is stored to another place than the local, and to no field of an object that is
the local's value itself, secrets are kept. -/
theorem yields_confined_assign (planned : job.Planned scope) {place : Place}
    (confined : value.Confined secrets) (other : place ≠ .var target)
    (fields : job.setting.model = .functional → ∀ field possibleTypes,
      place ≠ .field target field possibleTypes) :
    Lower.Yields (job.assign scope instr value place) fun answer =>
      Script.Confined secrets answer.1 := by
  cases place with
  | var name =>
      refine Lower.Yields.check.bind fun answer stored => .pure ?_
      exact entrusts.confined_store planned (fun same => other (same ▸ rfl)) confined stored
  | field base field possibleTypes =>
      have stores : Lower.Yields (job.storeField scope base field possibleTypes value instr)
          fun answer => Script.Confined secrets answer.1 := by
        unfold storeField
        refine yields_openField.bind fun access opened => ?_
        split
        · next steps written =>
          have approaches := opened.approaches entrusts planned
          refine .pure (Script.confined_append.2 ⟨approaches.before,
            approaches.write confined (fun isFunctional isCell => ?_) written⟩)
          obtain ⟨same, -⟩ := (entrusts.cell_iff _).1 isCell
          exact fields isFunctional field possibleTypes (by rw [← same, opened.owner])
        · exact nofun
        · exact .reject
      exact stores.bind fun answer stored => .pure stored
  | arrayElement base index =>
      refine Lower.Yields.check.bind fun array isArray =>
        Lower.Yields.check.bind fun position isPosition => .pure ?_
      exact Script.confined_stmt.2 (List.forall_mem_singleton.2
        ⟨entrusts.confined_valueOf planned isArray, entrusts.confined_operand planned isPosition,
          confined⟩)

/-- A plain instruction is confined. -/
theorem yields_confined_plainInstr (planned : job.Planned scope)
    (among : instr ∈ job.method.instrs) :
    Lower.Yields (job.plainInstr scope instr) fun answer => Script.Confined secrets answer.1 := by
  have defines (isTarget : instr.defines? = some target) : instr = .identity target source :=
    entrusts.reserves.copies instr among isTarget
  cases instr with
  | assign place value =>
      have other : place ≠ .var target := by
        rintro rfl
        cases defines rfl
      have fields (isFunctional : job.setting.model = .functional) (field : FieldRef)
          (possibleTypes : SortedSet String) : place ≠ .field target field possibleTypes := by
        rintro rfl
        exact entrusts.reserves.fields isFunctional field possibleTypes value among
      refine Lower.Yields.bind (fun _ _ _ made =>
        And.intro (yields_expr _ _ _ made) (entrusts.yields_discreet_expr planned _ _ _ made))
        fun computed ⟨ties, discreet⟩ => ?_
      refine Lower.Yields.bind (fun _ _ _ made => And.intro (yields_assign _ _ _ made)
        (entrusts.yields_confined_assign planned discreet.value other fields _ _ _ made))
        fun answer ⟨stores, confined⟩ => .pure ?_
      refine Script.confined_append.2 ⟨Script.confined_append.2 ⟨discreet.before, confined⟩,
        Script.confined_aliases (List.forall_mem_append.2 ⟨ties.1.aliases, stores.1.aliases⟩)⟩
  | call site =>
      refine Lower.Yields.bind (fun _ _ _ made =>
        And.intro (yields_call _ _ _ made) (entrusts.yields_discreet_call planned _ _ _ made))
        fun answer both => ?_
      obtain ⟨ties, discreet⟩ := both
      split
      · next computed =>
        have isDiscreet := discreet computed rfl
        exact .pure (Script.confined_append.2 ⟨Script.confined_append.2 ⟨isDiscreet.before,
          Script.confined_stmt.2 (List.forall_mem_singleton.2 isDiscreet.value)⟩,
          Script.confined_aliases (ties computed rfl).1.aliases⟩)
      · exact .pure Script.confined_nil
  | nop unreachable =>
      cases unreachable with
      | true => exact .pure (Script.confined_stmt.2 (List.forall_mem_singleton.2 trivial))
      | false => exact .pure Script.confined_nil
  | aliased left right =>
      exact Lower.Yields.skip fun one => Lower.Yields.skip fun other =>
        .pure (Script.confined_stmt.2 (List.forall_mem_singleton.2 trivial))
  | throw | identity | branch | goto | ret => exact .reject

/-- Recording a coordinate is confined. -/
theorem yields_confined_record {coord : Coord} :
    Lower.Yields (job.record coord) (Script.Confined secrets) := by
  unfold record
  split
  · exact Lower.Yields.skip fun number =>
      .pure (Script.confined_assign.2 ⟨entrusts.ignores_controlCell.1, trivial⟩)
  · exact .pure Script.confined_nil

/-- A return is confined. -/
theorem yields_confined_ret (planned : job.Planned scope) {id : BlockId} {value : Option Operand} :
    Lower.Yields (job.ret scope id value) (Script.Confined secrets) := by
  have returned {content : Target.Expr} (confined : content.Confined secrets) :
      Lower.Yields (do
        let recording ← job.record ⟨id, .exit⟩
        return recording ++ Script.ofStmts (job.returnAliases scope) ++ [Script.ret content])
        (Script.Confined secrets) := by
    refine entrusts.yields_confined_record.bind fun recording quiet => .pure ?_
    refine Script.confined_append.2 ⟨Script.confined_append.2 ⟨quiet, ?_⟩,
      Script.confined_ret.2 confined⟩
    exact Script.confined_aliases fun stmt => isAliased_of_mem_returnAliases
  unfold ret
  cases value with
  | none => exact returned trivial
  | some operand =>
      exact Lower.Yields.check.bind fun content found =>
        returned (entrusts.confined_operand planned found)

/-- What an instruction becomes keeps the secrets, with its condition. -/
theorem yields_confined_instr (planned : job.Planned scope) (among : instr ∈ job.method.instrs)
    {id : BlockId} :
    Lower.Yields (job.instr id scope instr) fun code => Script.Confined secrets code.steps ∧
      ∀ condition, code.condition = some condition → condition.Confined secrets := by
  cases instr with
  | branch value =>
      refine Lower.Yields.bind (fun _ _ _ made =>
        And.intro (yields_expr _ _ _ made) (entrusts.yields_discreet_expr planned _ _ _ made))
        fun computed ⟨ties, discreet⟩ => .pure ⟨?_, ?_⟩
      · exact Script.confined_append.2 ⟨discreet.before, Script.confined_aliases ties.1.aliases⟩
      · rintro _ ⟨⟩
        exact discreet.value
  | goto => exact .pure ⟨Script.confined_nil, nofun⟩
  | ret value =>
      exact (entrusts.yields_confined_ret planned).bind fun steps confined =>
        .pure ⟨confined, nofun⟩
  | identity name from_ =>
      intro progress code after made
      obtain ⟨-, ⟨-, rfl⟩ | ⟨-, -, param, binding, isParam, postponed, rfl⟩⟩ :=
        identity_eq_ok_iff.1 made
      · exact ⟨Script.confined_nil, nofun⟩
      · refine ⟨?_, nofun⟩
        have isLocal := planned.postponed _ _ postponed
        have member := List.mem_of_find?_eq_some isParam
        have isSource : param.source = from_ := by simpa using List.find?_some isParam
        by_cases same : name = target
        · subst same
          cases entrusts.reserves.copies _ among rfl
          exact entrusts.confined_copy isLocal member isSource
        · exact confined_introduce (entrusts.confined_incoming (List.mem_map_of_mem member))
            (entrusts.ignores_local isLocal same)
  | assign | call | nop | throw | aliased =>
      exact (entrusts.yields_confined_plainInstr planned among).bind fun answer confined =>
        .pure ⟨confined, nofun⟩

/-! ## Introductions -/

/-- A block introduces the local with the argument only. -/
theorem confined_openBlock {id : BlockId} {defined : List String} {list : List (String × Binding)}
    (locals : ∀ entry ∈ list, entry ∈ job.plan.locals)
    (defines : (target, .mutable) ∈ list → target ∈ defined) {answer : Script × Scope}
    (opens : job.openBlock id defined scope list = .ok answer) :
    Script.Confined secrets answer.1 := by
  induction list generalizing scope answer with
  | nil =>
      cases opens
      exact Script.confined_nil
  | cons first rest ih =>
      obtain ⟨name, binding⟩ := first
      obtain ⟨own, others⟩ := List.forall_mem_cons.1 locals
      have later := fun member => defines (List.mem_cons_of_mem _ member)
      unfold openBlock at opens
      split at opens
      · exact ih others later opens
      · next undefined =>
        dsimp only at opens
        split at opens
        · obtain ⟨type, -, opens⟩ := bind_eq_ok_iff.1 opens
          obtain ⟨inner, makes, opens⟩ := bind_eq_ok_iff.1 opens
          cases opens
          have other : name ≠ target := by
            rintro rfl
            exact undefined (defines List.mem_cons_self)
          exact Script.confined_cons.2 ⟨confined_bindCell confined_default
            (entrusts.ignores_local own other), ih others later makes⟩
        · cases opens

/-- The entry introduces the local with the argument only. -/
theorem confined_introduceEntry {list : List (String × Binding)}
    (entries : ∀ entry ∈ list, entry ∈ job.plan.entry.entries) {answer : Script × Scope}
    (introduces : job.introduceEntry scope list = .ok answer) :
    Script.Confined secrets answer.1 := by
  induction list generalizing scope answer with
  | nil =>
      cases introduces
      exact Script.confined_nil
  | cons first rest ih =>
      obtain ⟨name, binding⟩ := first
      obtain ⟨own, others⟩ := List.forall_mem_cons.1 entries
      have isLocal : (name, binding) ∈ job.plan.locals := List.mem_append_left _ own
      unfold introduceEntry at introduces
      split at introduces
      · next param isParam =>
        obtain ⟨inner, makes, introduces⟩ := bind_eq_ok_iff.1 introduces
        cases introduces
        have member := List.mem_of_find?_eq_some isParam
        have isTarget : param.target = some name := by simpa using List.find?_some isParam
        refine Script.confined_cons.2 ⟨?_, ih others makes⟩
        by_cases same : name = target
        · subst same
          exact entrusts.confined_copy isLocal member
            (entrusts.reserves.source_of_target member isTarget)
        · exact confined_introduce (entrusts.confined_incoming (List.mem_map_of_mem member))
            (entrusts.ignores_local isLocal same)
      · next none =>
        obtain ⟨type, -, introduces⟩ := bind_eq_ok_iff.1 introduces
        obtain ⟨inner, makes, introduces⟩ := bind_eq_ok_iff.1 introduces
        cases introduces
        have other : name ≠ target := by
          rintro rfl
          obtain ⟨param, member, isTarget⟩ := entrusts.reserves.exists_last entrusts.argument own
          have differ := List.find?_eq_none.1 none param member
          exact differ (by simpa using isTarget)
        exact Script.confined_cons.2 ⟨confined_bindCell confined_default
          (entrusts.ignores_local isLocal other), ih others makes⟩
      · exact ih others introduces

end Entrusts

end Entrusted

end Job

end GotoFree
