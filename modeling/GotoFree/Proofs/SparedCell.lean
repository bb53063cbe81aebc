import GotoFree.Proofs.Standing
import GotoFree.Target.Uses

/-!
# Instructions leave the control cell alone

If no local is named like the control cell, what the instructions of a method are lowered to writes
nothing to it, and no operator there takes its content (`Job.gives_spares_plainInstr`): the names in
it are those of locals and of temporaries. So only the jumps, returns and gates of a method deal
with flags, and while other steps are run no flag is handed out (`Flagging`).
-/

namespace GotoFree

open Target (Script Stmt)

/-! ## Flags that are handed out -/

/-- On the way to a later progress the flags keep their numbers, and if those handed out so far
belong to different coordinates that are recorded, so do all of them. -/
structure Flagging (recorded : CoordSet) (final progress : Progress) : Prop where
  order : progress.recorded.order <+: final.recorded.order
  sound : (∀ coord ∈ progress.recorded.order, coord ∈ recorded) →
    ∀ coord ∈ final.recorded.order, coord ∈ recorded
  distinct : progress.recorded.order.Nodup → final.recorded.order.Nodup

/-- The number that stands for a coordinate in the control cell. -/
def flagOf (final : Progress) (coord : Coord) : Int := final.recorded.order.idxOf coord + 1

namespace Flagging

variable {recorded : CoordSet} {final progress : Progress}

theorem refl : Flagging recorded final final := ⟨List.prefix_refl _, id, id⟩

theorem congr {other : Progress} (flagging : Flagging recorded final progress)
    (same : other.recorded = progress.recorded) : Flagging recorded final other := by
  obtain ⟨order, sound, distinct⟩ := flagging
  rw [← same] at order sound distinct
  exact ⟨order, sound, distinct⟩

theorem get : Lower.Answers (Flagging recorded final) (get : Lower Progress) fun _ => True :=
  .of_eq id id (fun _ => rfl) (fun _ => rfl) fun _ flagging => ⟨flagging, trivial⟩

theorem enter {spot : Spot} : Lower.Answers (Flagging recorded final) (Lower.enter spot)
    fun _ => True :=
  .of_eq _ _ (fun _ => rfl) (fun _ => rfl) fun _ flagging => ⟨flagging.congr rfl, trivial⟩

theorem warn {warning : String} : Lower.Answers (Flagging recorded final) (Lower.warn warning)
    fun _ => True :=
  .of_eq _ _ (fun _ => rfl) (fun _ => rfl) fun _ flagging => ⟨flagging.congr rfl, trivial⟩

theorem fresh {stem : String} : Lower.Answers (Flagging recorded final) (Lower.fresh stem)
    fun _ => True :=
  .of_eq _ _ (fun _ => rfl) (fun _ => rfl) fun _ flagging => ⟨flagging.congr rfl, trivial⟩

theorem request {id : MethodId} {method : Method} :
    Lower.Answers (Flagging recorded final) (Lower.request id method) fun _ => True :=
  .of_eq _ _ (fun _ => rfl) (fun _ => rfl) fun _ flagging => ⟨flagging.congr rfl, trivial⟩

theorem addHelper {function : Target.Function} :
    Lower.Gives (Flagging recorded final) (Lower.addHelper function)
      fun _ made => made = [function] := by
  rintro progress answer after ⟨⟩ flagging
  exact ⟨flagging.congr rfl, _, rfl, rfl⟩

/-- The flag of a coordinate that is recorded is its position among those that have one. -/
theorem flag {coord : Coord} (known : coord ∈ recorded) :
    Lower.Answers (Flagging recorded final) (Lower.flag coord) fun number =>
      coord ∈ final.recorded.order ∧ number = flagOf final coord := by
  refine .of_eq (fun progress => ((progress.recorded.number coord).1 : Int) + 1)
    (fun progress => { progress with recorded := (progress.recorded.number coord).2 })
    (fun _ => rfl) (fun _ => rfl) fun progress flagging => ?_
  obtain ⟨⟨more, same⟩, sound, distinct⟩ := flagging
  dsimp only at same sound distinct
  rw [Numbering.order_number] at same sound
  unfold flagOf Numbering.number
  split at same
  · next found =>
    rw [if_pos found] at sound ⊢
    rw [Numbering.order_number, if_pos found] at distinct
    have inner : progress.recorded.order <+: final.recorded.order := ⟨more, same⟩
    refine ⟨⟨inner, sound, distinct⟩, inner.subset found, ?_⟩
    rw [← same, List.idxOf_append_of_mem found]
  · next fresh =>
    rw [if_neg fresh] at sound ⊢
    have inner : progress.recorded.order <+: final.recorded.order := by
      rw [← same, List.append_assoc]
      exact List.prefix_append _ _
    refine ⟨⟨inner, fun known' => sound ?_, fun once => distinct (Numbering.nodup_number once)⟩,
      ?_, ?_⟩
    · intro other member
      rcases List.mem_append.1 member with member | member
      · exact known' other member
      · exact List.mem_singleton.1 member ▸ known
    · rw [← same]
      simp
    · rw [← same, List.append_assoc, List.idxOf_append_of_notMem fresh]
      simp

end Flagging

/-- A step that answers as it does anyway, if it hands out nothing. -/
theorem Lower.Answers.yields {α : Type} {fine : Progress → Prop} {step : Lower α} {post : α → Prop}
    (quiet : Answers fine step fun _ => True) (yields : Yields step post) :
    Answers fine step post := by
  intro progress answer after made isFine
  obtain ⟨before, functions, last, none, -⟩ := quiet progress answer after made isFine
  exact ⟨before, functions, last, none, yields progress answer after made⟩

/-! ## Values -/

namespace Job

variable {job : Job} {scope after : Scope} {source : Instr} {name : String}
  {value : Target.Expr} {recorded : CoordSet} {final : Progress} {computed : Computed}

/-- No local of the plan is named like the control cell. -/
def Avoids (job : Job) : Prop := ∀ entry ∈ job.plan.locals, entry.1 ≠ controlCell

/-- A value with what stands before and after it leaves the control cell alone. -/
structure Spares (computed : Computed) : Prop where
  before : Script.Spares controlCell computed.before
  value : computed.value.SparesAll controlCell
  after : Script.Spares controlCell (Script.ofStmts computed.after)

theorem Spares.pure (spares : value.SparesAll controlCell) : Spares (.pure value) :=
  ⟨Script.spares_nil, spares, Script.spares_nil⟩

/-- A name with a stem that the control cell does not start with. -/
theorem ne_controlCell {stem ending : String} (other : ¬ stem.toList <+: controlCell.toList) :
    stem ++ ending ≠ controlCell := by
  intro same
  apply other
  rw [← same, String.toList_append]
  exact List.prefix_append _ _

theorem sparesAll_default {type : Ty} : type.default.SparesAll controlCell := by
  cases type <;> simp [Ty.default]

@[simp] theorem spares_introduce {binding : Binding} :
    Script.Spares controlCell [binding.introduce name value] ↔ value.SparesAll controlCell := by
  cases binding with
  | mutable => exact Script.spares_bindCell
  | const => exact Script.spares_bindName

section Values

variable (free : job.Avoids) (planned : job.Planned scope)

include free planned

theorem ne_of_bound {binding : Binding} (bound : scope.binding? name = some binding) :
    name ≠ controlCell :=
  free _ (planned.bound name binding bound)

theorem spares_valueOf (found : job.valueOf scope name = .ok value) :
    value.SparesAll controlCell ∧ value ≠ .contentOf controlCell := by
  obtain ⟨binding, isBinding, same⟩ := bind_eq_ok_iff.1 found
  cases same
  have other := ne_of_bound free planned (bindingOf_eq_ok_iff.1 isBinding)
  cases binding with
  | mutable => simpa [Binding.valueOf] using other
  | const => simp [Binding.valueOf, Target.Expr.contentOf]

theorem spares_operand {operand : Operand} (found : job.operand scope operand = .ok value) :
    value.SparesAll controlCell ∧ value ≠ .contentOf controlCell := by
  cases operand with
  | var => exact spares_valueOf free planned found
  | int | bool | null =>
      cases found
      simp [Target.Expr.contentOf]

theorem spares_followPath {path : AccessPath}
    (found : job.followPath scope path source = .ok value) : value.SparesAll controlCell := by
  obtain ⟨start, isStart, found⟩ := bind_eq_ok_iff.1 found
  have spares := (spares_valueOf free planned isStart).1
  clear isStart
  generalize path.fields = fields at found
  induction fields generalizing start with
  | nil =>
      cases found
      exact spares
  | cons field rest ih =>
      obtain ⟨next, here, later⟩ := bind_eq_ok_iff.1 found
      obtain ⟨place, -, same⟩ := bind_eq_ok_iff.1 here
      cases same
      refine ih _ ?_ later
      cases job.setting.model <;> simpa [ObjectModel.pathToSlot] using spares

theorem spares_pass {temporaries : Temporaries} {operand : Operand} {position : Nat}
    (made : job.pass scope temporaries operand position = .ok computed) : Spares computed := by
  rcases pass_cases made with ⟨name, -, -, rfl⟩ | ⟨-, value, isValue, rfl⟩
  · refine ⟨by simp, by simp, Script.spares_stmt rfl rfl ?_⟩
    simp [Stmt.operands]
  · exact .pure (spares_operand free planned isValue).1

theorem spares_store {steps : Script} (spares : value.SparesAll controlCell)
    (stored : job.store scope name value = .ok (steps, after)) :
    Script.Spares controlCell steps := by
  unfold store at stored
  split at stored
  · next bound =>
    cases stored
    exact Script.spares_assign (ne_of_bound free planned bound) spares
  · cases stored
  · cases stored
    exact spares_introduce.2 spares
  · cases stored

end Values

theorem spares_allocate {className : String} (made : job.allocate className source = .ok value) :
    value.SparesAll controlCell := by
  unfold allocate at made
  split at made
  · next tag types _ _ =>
    cases made
    have each : ∀ slot ∈ Target.Expr.int tag :: types.map fun type => type.elim (.int 0) Ty.default,
        slot.SparesAll controlCell := by
      refine List.forall_mem_cons.2 ⟨Target.Expr.sparesAll_int, fun slot member => ?_⟩
      obtain ⟨type, -, rfl⟩ := List.mem_map.1 member
      cases type with
      | none => exact Target.Expr.sparesAll_int
      | some type => exact sparesAll_default
    cases job.setting.model with
    | functional => exact Target.Expr.sparesAll_tuple.2 each
    | mutable =>
        refine Target.Expr.sparesAll_tuple.2 fun cell member => ?_
        obtain ⟨content, among, rfl⟩ := List.mem_map.1 member
        exact Target.Expr.sparesAll_mkRef.2 (each content among)
  · cases made

/-! ## Fields -/

section Fields

variable {base : String} {field : FieldRef} {possibleTypes : SortedSet String} {access : Access}

theorem flagging_openField : Lower.Answers (Flagging recorded final)
    (job.openField scope base field possibleTypes source) fun _ => True := by
  unfold openField
  refine (Lower.Answers.check fun _ _ => trivial).skip fun place =>
    (Lower.Answers.check fun _ _ => trivial).skip fun binding => ?_
  cases binding with
  | mutable =>
      exact Flagging.fresh.skip fun object => Flagging.fresh.skip fun cell => .pure ⟨rfl, trivial⟩
  | const => exact Flagging.fresh.skip fun cell => .pure ⟨rfl, trivial⟩

/-- A slot is read and written under a name of its own. -/
structure Opens (access : Access) : Prop where
  before : Script.Spares controlCell access.before
  base : access.handle.base.SparesAll controlCell
  cell : access.handle.cell ≠ controlCell
  owner : access.owner.isCell = true → access.owner.name ≠ controlCell

theorem Opened.opens (free : job.Avoids) (planned : job.Planned scope)
    (opened : job.Opened scope source base field possibleTypes access) : Opens access := by
  obtain ⟨ending, named⟩ := opened.cell
  have cell : access.handle.cell ≠ controlCell := by
    rw [named, String.append_assoc]
    exact ne_controlCell (by decide)
  have owner (isCell : access.owner.isCell = true) : access.owner.name ≠ controlCell := by
    rw [opened.owner]
    exact ne_of_bound free planned (opened.isCell_iff.1 isCell)
  have shape := opened.before
  split at shape
  · obtain ⟨ending, before, isBase⟩ := shape
    exact ⟨by simp [before], by simp [isBase], cell, owner⟩
  · obtain ⟨before, isBase, -⟩ := shape
    exact ⟨by simp [before], by simp [isBase], cell, owner⟩

variable (opens : Opens access)

include opens

theorem Opens.read {model : ObjectModel} :
    Script.Spares controlCell (model.read access.handle).1 ∧
      (model.read access.handle).2.SparesAll controlCell := by
  constructor
  · exact Script.spares_bind.2 opens.base
  · cases model <;> simp [ObjectModel.read]

theorem Opens.tieAgain {model : ObjectModel} :
    Script.Spares controlCell (Script.ofStmts (model.tieAgain access.handle access.owner)) := by
  apply Script.spares_ofStmts_iff.2
  intro stmt member
  cases model with
  | functional => cases member
  | mutable =>
      rcases List.mem_cons.1 member with rfl | member
      · exact Script.spares_stmt rfl rfl (by simp [Stmt.operands, opens.base])
      · split at member
        · obtain rfl := List.mem_singleton.1 member
          exact Script.spares_stmt rfl rfl (by simp [Stmt.operands, opens.base])
        · cases member

theorem Opens.write {model : ObjectModel} {steps : Script} (spares : value.SparesAll controlCell)
    (written : model.write access.handle access.owner value = .ok steps) :
    Script.Spares controlCell steps := by
  cases model with
  | mutable =>
      cases written
      exact Script.spares_cons.2 ⟨Script.spares_bind.2 opens.base,
        Script.spares_assign opens.cell spares⟩
  | functional =>
      unfold ObjectModel.write at written
      dsimp only at written
      split at written
      · cases written
      · next isOwner =>
        split at written
        · cases written
        · cases written
          refine Script.spares_cons.2 ⟨Script.spares_bind.2 opens.base,
            Script.spares_assign (opens.owner (by simpa using isOwner)) ?_⟩
          refine Target.Expr.sparesAll_tuple.2 fun component member => ?_
          rcases List.mem_or_eq_of_mem_set member with member | rfl
          · obtain ⟨name, -, rfl⟩ := List.mem_map.1 member
            exact Target.Expr.sparesAll_var
          · exact spares

end Fields

/-! ## Calls -/

/-- No function of some leaves the control cell to a test or a write. -/
def SparedBy (functions : List Target.Function) : Prop :=
  ∀ function ∈ functions, Script.Spares controlCell (Script.ofStmts function.body)

theorem sparedBy_nil : SparedBy [] := nofun

theorem SparedBy.append {functions more : List Target.Function} (first : SparedBy functions)
    (second : SparedBy more) : SparedBy (functions ++ more) :=
  List.forall_mem_append.2 ⟨first, second⟩

theorem flagging_requestCallee {callee : MethodId} :
    Lower.Answers (Flagging recorded final) (job.requestCallee callee) fun _ => True := by
  unfold requestCallee
  split
  · exact Flagging.request
  · exact .reject

theorem spares_dispatchArm {tag : Target.Expr} (other : tag ≠ .contentOf controlCell)
    (inside : tag.SparesAll controlCell) {args : List Target.Expr}
    (each : ∀ arg ∈ args, arg.SparesAll controlCell) {callee : MethodId}
    {classes : SortedSet String} :
    Lower.Answers (Flagging recorded final) (job.dispatchArm tag args callee classes) fun stmt =>
      Script.Spares controlCell [.stmt stmt] := by
  unfold dispatchArm
  refine (@Lower.Answers.mapM _ _ _ _ _ (fun _ _ => True) fun className _ => ?_).andThen
    fun tags => flagging_requestCallee.andThen fun function => ?_
  · split
    · exact .pure trivial
    · exact .reject
  · split
    · next test isTest =>
      refine .pure fun _ _ => Script.spares_cond ?_ ?_ Script.spares_nil
      · exact Target.Expr.sparesAll_anyOf? other inside isTest
      · exact Script.spares_ret.2 (Target.Expr.sparesAll_call.2 each)
    · exact .throw

theorem gives_spares_dispatch {site : Call} {table : DispatchTable} :
    Lower.Gives (Flagging recorded final) (job.dispatch site table source) fun _ made =>
      SparedBy made := by
  unfold dispatch
  refine (Lower.Answers.check fun _ _ => trivial).skip fun width =>
    Flagging.get.skip fun progress => ?_
  have tag : (job.setting.model.read ⟨.var "this", 0, width, "__tag"⟩).2 ≠
        .contentOf controlCell ∧
      (job.setting.model.read ⟨.var "this", 0, width, "__tag"⟩).2.SparesAll controlCell := by
    cases job.setting.model with
    | mutable => simp [ObjectModel.read, controlCell]
    | functional => exact ⟨nofun, Target.Expr.sparesAll_var⟩
  refine Lower.Answers.bind (Lower.Answers.mapM fun entry _ =>
    spares_dispatchArm tag.1 tag.2 fun arg member => ?_) fun arms => ?_
  · obtain ⟨name, -, rfl⟩ := List.mem_map.1 member
    exact Target.Expr.sparesAll_var
  · refine Flagging.addHelper.bind fun _ => .pure ?_
    rintro _ rfl spared
    rw [List.append_nil]
    refine List.forall_mem_singleton.2 ?_
    have ofArms : ∀ arm ∈ arms, Script.Spares controlCell [.stmt arm] := fun arm member =>
      (exists_of_mem_right spared member).elim fun _ found => found.2
    have ofLast : ∀ stmt ∈ [Stmt.assertFalse, .ret (job.dispatchType table).default],
        Script.Spares controlCell [.stmt stmt] := by
      refine List.forall_mem_cons.2 ⟨?_, List.forall_mem_singleton.2 ?_⟩
      · exact Script.spares_stmt rfl rfl (by simp [Stmt.assertFalse, Stmt.operands])
      · exact Script.spares_ret.2 sparesAll_default
    rw [Script.spares_stmts, Script.spares_append]
    refine ⟨Script.spares_bind.2 Target.Expr.sparesAll_var, Script.spares_ofStmts_iff.2 ?_⟩
    exact List.forall_mem_append.2 ⟨ofArms, ofLast⟩

theorem gives_spares_calleeOf {site : Call} :
    Lower.Gives (Flagging recorded final) (job.calleeOf site source) fun _ made =>
      SparedBy made := by
  have direct {callee : MethodId} : Lower.Gives (Flagging recorded final)
      (do return some (← job.requestCallee callee)) fun _ made => SparedBy made :=
    flagging_requestCallee.skip fun function => .pure sparedBy_nil
  unfold calleeOf
  dsimp only
  split
  · split
    · exact direct
    · exact .reject
  · split
    · exact direct
    · split
      · exact Flagging.warn.skip fun _ => .pure sparedBy_nil
      · exact .reject
  · refine (Lower.Answers.check fun _ _ => trivial).skip fun table => ?_
    split
    · exact direct
    · refine gives_spares_dispatch.bind fun name => .pure fun made spared => ?_
      rwa [List.append_nil]

section Instructions

variable (free : job.Avoids) (planned : job.Planned scope)

include free planned

theorem gives_spares_call {site : Call} :
    Lower.Gives (Flagging recorded final) (job.call scope site source) fun answer made =>
      (∀ computed ∈ answer, Spares computed) ∧ SparedBy made := by
  unfold call
  refine gives_spares_calleeOf.bind fun callee => ?_
  split
  · exact .pure fun made spared => ⟨nofun, by rwa [List.append_nil]⟩
  · next function =>
    refine (Lower.Answers.check fun _ _ => trivial).skip fun operands =>
      Flagging.get.skip fun progress => ?_
    refine (Lower.Answers.check fun args passed => mapM_eq_ok_iff.1 passed).bind fun args =>
      .pure ?_
    intro passed made spared
    rw [List.append_nil]
    have each : ∀ arg ∈ args, Spares arg := fun arg member =>
      (exists_of_mem_right passed member).elim fun _ found => spares_pass free planned found.2
    refine ⟨?_, spared⟩
    rintro _ ⟨⟩
    refine ⟨Script.spares_flatMap fun arg member => (each arg member).before,
      Target.Expr.sparesAll_call.2 fun value member => ?_,
      Script.spares_ofStmts_iff.2 fun stmt member => ?_⟩
    · obtain ⟨arg, among, rfl⟩ := List.mem_map.1 member
      exact (each arg among).value
    · obtain ⟨arg, among, inside⟩ := List.mem_flatMap.1 member
      exact Script.spares_ofStmts_iff.1 (each arg among).after stmt inside

/-! ## Instructions -/

theorem gives_spares_expr {expr : Expr} :
    Lower.Gives (Flagging recorded final) (job.expr scope source expr) fun computed made =>
      Spares computed ∧ SparedBy made := by
  have pure {value : Target.Expr} (spares : value.SparesAll controlCell) :
      Lower.Gives (Flagging recorded final) (Pure.pure (Computed.pure value) : Lower Computed)
        fun computed made => Spares computed ∧ SparedBy made :=
    .pure ⟨.pure spares, sparedBy_nil⟩
  have operand {operand : Operand} : Lower.Gives (Flagging recorded final)
      (do return .pure (← job.operand scope operand)) fun computed made =>
        Spares computed ∧ SparedBy made :=
    .check_bind fun value found => pure (spares_operand free planned found).1
  cases expr with
  | use => exact operand
  | binary op left right =>
      refine .check_bind fun one isOne => .check_bind fun other isOther => pure ?_
      have first := spares_operand free planned isOne
      have second := spares_operand free planned isOther
      exact Target.Expr.sparesAll_binary.2 ⟨⟨first.2, second.2⟩, first.1, second.1⟩
  | unary op inner =>
      refine .check_bind fun value found => pure ?_
      exact Target.Expr.sparesAll_unary.2 (spares_operand free planned found).1
  | fieldRead base field possibleTypes =>
      unfold Job.expr fieldValue
      refine (flagging_openField.yields yields_openField).bind fun access => .pure fun opened => ?_
      have opens := opened.opens free planned
      obtain ⟨steps, content⟩ := @Opens.read access opens job.setting.model
      exact ⟨⟨Script.spares_append.2 ⟨opens.before, steps⟩, content, opens.tieAgain⟩,
        sparedBy_nil⟩
  | arrayRead base index =>
      refine .check_bind fun array isArray => .check_bind fun position isPosition => pure ?_
      exact Target.Expr.sparesAll_index.2 ⟨(spares_valueOf free planned isArray).1,
        (spares_operand free planned isPosition).1⟩
  | arrayLength base =>
      refine .check_bind fun array isArray => pure ?_
      exact Target.Expr.sparesAll_length.2 (spares_valueOf free planned isArray).1
  | new className => exact .check_bind fun value made => pure (spares_allocate made)
  | newArray type size =>
      refine .check_bind fun value found => pure ?_
      exact Target.Expr.sparesAll_mkArray.2 (spares_operand free planned found).1
  | call site =>
      refine (gives_spares_call free planned).bind fun answer => ?_
      split
      · refine .pure ?_
        rintro made ⟨spares, spared⟩
        exact ⟨spares _ rfl, by rwa [List.append_nil]⟩
      · exact .reject
  | nondet => exact pure Target.Expr.sparesAll_nondet
  | cast _ type =>
      unfold Job.expr
      dsimp only
      split
      · exact operand
      · exact .reject
  | unmodelled => exact .reject

theorem gives_spares_assign {place : Place} :
    Lower.Answers (Flagging recorded final) (job.assign scope source value place) fun answer =>
      value.SparesAll controlCell → Script.Spares controlCell answer.1 ∧
        Script.Spares controlCell (Script.ofStmts answer.2.2) := by
  cases place with
  | var name =>
      refine .check_bind fun answer stored => .pure ⟨rfl, fun spares => ⟨?_, Script.spares_nil⟩⟩
      exact spares_store free planned spares stored
  | field base field possibleTypes =>
      have stores : Lower.Answers (Flagging recorded final)
          (job.storeField scope base field possibleTypes value source) fun answer =>
            value.SparesAll controlCell → Script.Spares controlCell answer.1 ∧
              Script.Spares controlCell (Script.ofStmts answer.2) := by
        refine (flagging_openField.yields yields_openField).andThen fun access => ?_
        split
        · next steps written =>
          refine .pure fun opened spares => ?_
          have opens := opened.opens free planned
          exact ⟨Script.spares_append.2 ⟨opens.before, opens.write spares written⟩, opens.tieAgain⟩
        · exact .throw
        · exact .reject
      exact stores.bind fun answer => .pure fun both => ⟨rfl, both⟩
  | arrayElement base index =>
      refine .check_bind fun array isArray => .check_bind fun position isPosition => .pure ?_
      refine ⟨rfl, fun spares => ⟨Script.spares_stmt rfl rfl ?_, Script.spares_nil⟩⟩
      simp [Stmt.operands, spares, (spares_valueOf free planned isArray).1,
        (spares_operand free planned isPosition).1]

theorem gives_spares_plainInstr :
    Lower.Gives (Flagging recorded final) (job.plainInstr scope source) fun answer made =>
      Script.Spares controlCell answer.1 ∧ SparedBy made := by
  cases source with
  | assign target value =>
      refine (gives_spares_expr free planned).bind fun computed =>
        (gives_spares_assign free planned).bind fun answer => .pure ?_
      rintro stores made ⟨spares, spared⟩
      obtain ⟨steps, behind⟩ := stores spares.value
      rw [List.append_nil, Script.spares_append, Script.spares_append, Script.ofStmts_append,
        Script.spares_append]
      exact ⟨⟨⟨spares.before, steps⟩, spares.after, behind⟩, spared⟩
  | call site =>
      refine (gives_spares_call free planned).bind fun answer => ?_
      split
      · next computed =>
        refine .pure ?_
        rintro made ⟨each, spared⟩
        have spares := each computed rfl
        rw [List.append_nil, Script.spares_append, Script.spares_append]
        refine ⟨⟨⟨spares.before, Script.spares_stmt rfl rfl ?_⟩, spares.after⟩, spared⟩
        simpa [Stmt.operands] using spares.value
      · exact .pure fun made found => ⟨Script.spares_nil, by simpa using found.2⟩
  | nop unreachable =>
      cases unreachable with
      | true =>
          refine .pure ⟨Script.spares_stmt rfl rfl ?_, sparedBy_nil⟩
          simp [Stmt.assertFalse, Stmt.operands]
      | false => exact .pure ⟨Script.spares_nil, sparedBy_nil⟩
  | aliased left right =>
      refine .check_bind fun one isOne => .check_bind fun other isOther => .pure ?_
      refine ⟨Script.spares_stmt rfl rfl ?_, sparedBy_nil⟩
      simp [Stmt.operands, spares_followPath free planned isOne,
        spares_followPath free planned isOther]
  | throw | identity | branch | goto | ret => exact .reject

end Instructions

/-! ## Introductions -/

theorem spares_openBlock {id : BlockId} {defined : List String} {list : List (String × Binding)}
    {answer : Script × Scope} (opens : job.openBlock id defined scope list = .ok answer) :
    Script.Spares controlCell answer.1 := by
  induction list generalizing scope answer with
  | nil =>
      cases opens
      exact Script.spares_nil
  | cons first rest ih =>
      unfold openBlock at opens
      split at opens
      · exact ih opens
      · dsimp only at opens
        split at opens
        · obtain ⟨type, -, opens⟩ := bind_eq_ok_iff.1 opens
          obtain ⟨inner, makes, opens⟩ := bind_eq_ok_iff.1 opens
          cases opens
          exact Script.spares_cons.2 ⟨Script.spares_bindCell.2 sparesAll_default, ih makes⟩
        · cases opens

theorem spares_introduceEntry {list : List (String × Binding)} {answer : Script × Scope}
    (introduces : job.introduceEntry scope list = .ok answer) :
    Script.Spares controlCell answer.1 := by
  induction list generalizing scope answer with
  | nil =>
      cases introduces
      exact Script.spares_nil
  | cons first rest ih =>
      unfold introduceEntry at introduces
      split at introduces
      · obtain ⟨inner, makes, introduces⟩ := bind_eq_ok_iff.1 introduces
        cases introduces
        exact Script.spares_cons.2 ⟨spares_introduce.2 Target.Expr.sparesAll_var, ih makes⟩
      · obtain ⟨type, -, introduces⟩ := bind_eq_ok_iff.1 introduces
        obtain ⟨inner, makes, introduces⟩ := bind_eq_ok_iff.1 introduces
        cases introduces
        exact Script.spares_cons.2 ⟨Script.spares_bindCell.2 sparesAll_default, ih makes⟩
      · exact ih introduces

end Job

end GotoFree
