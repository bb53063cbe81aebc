import GotoFree.Proofs.Aliases
import GotoFree.Target.Calls

/-!
# Code that calls nothing

Apart from the calls of the source, the only calls in lowered code are those that run a loop. So the
values of locals and fields call nothing, the steps that store a value call only what the value
calls (`Job.yields_calls_assign`), and a jump calls at most the function of the loop around it
(`Job.yields_calls_jump`).
-/

namespace GotoFree

open Target (Script Step Stmt)

variable {value : Target.Expr} {name : String}

/-- The first value of a type is no call. -/
@[simp] theorem Ty.calls_default {type : Ty} : type.default.calls = [] := by
  cases type <;> simp [Ty.default, Target.Expr.calls]

@[simp] theorem Binding.calls_valueOf {binding : Binding} : (binding.valueOf name).calls = [] := by
  cases binding with
  | mutable => exact Target.Expr.calls_contentOf
  | const => exact Target.Expr.calls_var

@[simp] theorem Binding.calls_introduce {binding : Binding} :
    (binding.introduce name value).calls = value.calls := by
  cases binding with
  | mutable => exact Script.calls_bindCell
  | const => exact Script.calls_bindName

/-- The calls in a value, with those in the steps before and the statements after it. -/
def Computed.calls (computed : Computed) : List (String × Nat) :=
  computed.before.calls ++ computed.value.calls ++ Stmt.callsOfAll computed.after

@[simp] theorem Computed.calls_pure : (Computed.pure value).calls = value.calls := by
  simp [Computed.calls, Computed.pure]

/-- A computed value makes no call if neither its code nor the value does. -/
theorem Computed.calls_eq_nil_iff {computed : Computed} : computed.calls = [] ↔
    computed.before.calls = [] ∧ computed.value.calls = [] ∧
      Stmt.callsOfAll computed.after = [] := by
  simp [Computed.calls]

/-- A call with arguments that call nothing is all that is called. -/
theorem Computed.calls_call {function : String} {args : List Computed}
    (none : ∀ arg ∈ args, arg.calls = []) :
    Computed.calls ⟨args.flatMap before, .call function (args.map Computed.value),
      args.flatMap after⟩ = [(function, args.length)] := by
  have parts (arg : Computed) (member : arg ∈ args) := calls_eq_nil_iff.1 (none arg member)
  have befores : Script.calls (args.flatMap before) = [] := by
    rw [Script.calls, List.flatMap_assoc, List.flatMap_eq_nil_iff]
    exact fun arg member => (parts arg member).1
  have values : Target.Expr.callsOfAll (args.map Computed.value) = [] := by
    apply Target.Expr.callsOfAll_eq_nil
    intro expr member
    obtain ⟨arg, among, rfl⟩ := List.mem_map.1 member
    exact (parts arg among).2.1
  have afters : Stmt.callsOfAll (args.flatMap after) = [] := by
    apply Stmt.callsOfAll_eq_nil_iff.2
    intro stmt member
    obtain ⟨arg, among, inside⟩ := List.mem_flatMap.1 member
    exact Stmt.callsOfAll_eq_nil_iff.1 (parts arg among).2.2 stmt inside
  rw [calls, befores, afters, Target.Expr.calls, values, List.length_map, List.nil_append,
    List.append_nil]

/-- The call that the function of a loop takes. -/
def LoopFrame.heading (frame : LoopFrame) : String × Nat := (frame.name, frame.params.length)

/-- A loop is run again by one call of its function. -/
@[simp] theorem LoopFrame.calls_again {frame : LoopFrame} : frame.again.calls = [frame.heading] :=
  Target.Expr.calls_call_vars

/-! ## Objects -/

namespace ObjectModel

variable {model : ObjectModel} {handle : Handle} {owner : Owner}

theorem calls_allocate {tag : Int} {fields : List Target.Expr}
    (none : ∀ field ∈ fields, field.calls = []) : (model.allocate tag fields).calls = [] := by
  have all : ∀ slot ∈ Target.Expr.int tag :: fields, slot.calls = [] :=
    List.forall_mem_cons.2 ⟨Target.Expr.calls_int, none⟩
  cases model with
  | functional =>
      rw [allocate, Target.Expr.calls]
      exact Target.Expr.callsOfAll_eq_nil all
  | mutable =>
      rw [allocate, Target.Expr.calls]
      apply Target.Expr.callsOfAll_eq_nil
      intro cell member
      obtain ⟨content, among, rfl⟩ := List.mem_map.1 member
      rw [Target.Expr.calls, all content among]

@[simp] theorem calls_pathToSlot {path : Target.Expr} {slot : Nat} :
    (model.pathToSlot path slot).calls = path.calls := by
  cases model <;> simp [pathToSlot, Target.Expr.calls]

variable (ofBase : handle.base.calls = [])

include ofBase

theorem calls_read :
    Script.calls (model.read handle).1 = [] ∧ (model.read handle).2.calls = [] := by
  constructor
  · simp [read, ofBase]
  · cases model with
    | mutable => exact Target.Expr.calls_contentOf
    | functional => exact Target.Expr.calls_var

theorem callsOfAll_tieAgain : Stmt.callsOfAll (model.tieAgain handle owner) = [] := by
  cases model with
  | functional => exact Stmt.callsOfAll_nil
  | mutable =>
      cases isCell : owner.isCell <;>
        simp [tieAgain, isCell, Stmt.calls, Target.Expr.calls, ofBase]

/-- A write to a slot calls only what the value calls. -/
theorem calls_write {steps : Script} (written : model.write handle owner value = .ok steps) :
    steps.calls ⊆ value.calls := by
  cases model with
  | mutable =>
      cases written
      simp [ofBase]
  | functional =>
      unfold write at written
      dsimp only at written
      split at written
      · cases written
      · split at written
        · cases written
        · cases written
          simp only [Script.calls_cons, Step.calls_bind, ofBase, Script.calls_assign,
            Target.Expr.calls, Target.Expr.callsOfAll_eq, List.nil_append, Script.calls_nil,
            List.append_nil]
          intro call member
          obtain ⟨component, among, called⟩ := List.mem_flatMap.1 member
          rcases List.mem_or_eq_of_mem_set among with among | rfl
          · obtain ⟨name, -, rfl⟩ := List.mem_map.1 among
            rw [Target.Expr.calls_var] at called
            cases called
          · exact called

end ObjectModel

namespace Job

variable {job : Job} {scope after : Scope} {source : Instr} {steps : Script}

/-! ## Values -/

/-- The value of a local makes no call. -/
theorem calls_valueOf (found : job.valueOf scope name = .ok value) : value.calls = [] := by
  obtain ⟨binding, -, same⟩ := bind_eq_ok_iff.1 found
  cases same
  exact Binding.calls_valueOf

/-- An operand makes no call. -/
theorem calls_operand {operand : Operand} (found : job.operand scope operand = .ok value) :
    value.calls = [] := by
  cases operand with
  | var => exact calls_valueOf found
  | int | bool | null =>
      cases found
      rw [Target.Expr.calls]

/-- An object is allocated without a call. -/
theorem calls_allocate {className : String} (made : job.allocate className source = .ok value) :
    value.calls = [] := by
  unfold allocate at made
  split at made
  · cases made
    apply ObjectModel.calls_allocate
    intro field member
    obtain ⟨type, -, rfl⟩ := List.mem_map.1 member
    cases type with
    | none => exact Target.Expr.calls_int
    | some type => exact Ty.calls_default
  · cases made

/-- A path is followed without a call. -/
theorem calls_followPath {path : AccessPath}
    (found : job.followPath scope path source = .ok value) : value.calls = [] := by
  obtain ⟨start, isStart, found⟩ := bind_eq_ok_iff.1 found
  have none := calls_valueOf isStart
  clear isStart
  generalize path.fields = fields at found
  induction fields generalizing start with
  | nil =>
      cases found
      exact none
  | cons field rest ih =>
      obtain ⟨next, here, later⟩ := bind_eq_ok_iff.1 found
      obtain ⟨place, -, same⟩ := bind_eq_ok_iff.1 here
      cases same
      exact ih _ (by rw [ObjectModel.calls_pathToSlot, none]) later

/-- An argument is passed without a call of its own. -/
theorem calls_pass {temporaries : Temporaries} {operand : Operand} {position : Nat}
    {computed : Computed} (made : job.pass scope temporaries operand position = .ok computed) :
    computed.calls = [] := by
  rcases pass_cases made with ⟨name, -, -, rfl⟩ | ⟨-, value, isValue, rfl⟩
  · simp [Computed.calls, Stmt.calls]
  · rw [Computed.calls_pure]
    exact calls_operand isValue

/-- A store makes the calls of the stored value, and stays in its loop. -/
theorem calls_store (stored : job.store scope name value = .ok (steps, after)) :
    after.loop = scope.loop ∧ steps.calls = value.calls := by
  unfold store at stored
  split at stored
  · cases stored
    simp
  · cases stored
  · cases stored
    simp [Scope.bind]
  · cases stored

/-! ## Fields -/

section Fields

variable {base : String} {field : FieldRef} {possibleTypes : SortedSet String} {access : Access}

/-- An access to a field makes no call. -/
theorem Opened.calls_eq_nil (opened : job.Opened scope source base field possibleTypes access) :
    access.before.calls = [] ∧ access.handle.base.calls = [] := by
  have shape := opened.before
  split at shape
  · obtain ⟨ending, before, isBase⟩ := shape
    simp [before, isBase]
  · obtain ⟨before, isBase, -⟩ := shape
    simp [before, isBase]

/-- A field is read without a call. -/
theorem yields_calls_fieldValue :
    Lower.Yields (job.fieldValue scope base field possibleTypes source) fun computed =>
      computed.calls = [] := by
  refine yields_openField.bind fun access opened => .pure ?_
  obtain ⟨before, ofBase⟩ := opened.calls_eq_nil
  obtain ⟨steps, content⟩ := @ObjectModel.calls_read job.setting.model _ ofBase
  refine Computed.calls_eq_nil_iff.2 ⟨?_, content, ObjectModel.callsOfAll_tieAgain ofBase⟩
  rw [Script.calls_append, before]
  exact steps

/-- A store into a field makes the calls of the stored value only. -/
theorem yields_calls_storeField :
    Lower.Yields (job.storeField scope base field possibleTypes value source) fun answer =>
      answer.1.calls ⊆ value.calls ∧ Stmt.callsOfAll answer.2 = [] := by
  refine yields_openField.bind fun access opened => ?_
  obtain ⟨before, ofBase⟩ := opened.calls_eq_nil
  split
  · next steps written =>
    refine .pure ⟨?_, ObjectModel.callsOfAll_tieAgain ofBase⟩
    rw [Script.calls_append, before, List.nil_append]
    exact ObjectModel.calls_write ofBase written
  · exact nofun
  · exact .reject

end Fields

/-- The steps that store a value call only what the value calls. -/
theorem yields_calls_assign {place : Place} :
    Lower.Yields (job.assign scope source value place) fun answer =>
      answer.2.1.loop = scope.loop ∧ answer.1.calls ⊆ value.calls ∧
        Stmt.callsOfAll answer.2.2 = [] := by
  cases place with
  | var name =>
      refine Lower.Yields.check.bind fun answer stored => .pure ?_
      obtain ⟨loop, calls⟩ := calls_store stored
      exact ⟨loop, calls ▸ List.Subset.refl _, Stmt.callsOfAll_nil⟩
  | field base field possibleTypes =>
      exact yields_calls_storeField.bind fun answer stored => .pure ⟨rfl, stored⟩
  | arrayElement base index =>
      refine Lower.Yields.check.bind fun array isArray =>
        Lower.Yields.check.bind fun position isPosition => .pure ⟨rfl, ?_, Stmt.callsOfAll_nil⟩
      simp [Stmt.calls, calls_valueOf isArray, calls_operand isPosition]

/-! ## Flags -/

/-- A coordinate is recorded without a call. -/
theorem yields_calls_record {coord : Coord} :
    Lower.Yields (job.record coord) fun steps => steps.calls = [] := by
  unfold record
  split
  · exact Lower.Yields.skip fun flag => .pure (by simp)
  · exact .pure rfl

/-- A test on flags makes no call. -/
theorem yields_calls_flagTest {flags : List Int} :
    Lower.Yields (flagTest flags) fun test => test.calls = [] := by
  unfold flagTest
  split
  · next test isTest => exact .pure (Target.Expr.calls_anyOf? Target.Expr.calls_contentOf isTest)
  · exact nofun

theorem yields_calls_gate {coords : CoordSet} :
    Lower.Yields (gate coords) fun test => test.calls = [] :=
  Lower.Yields.skip fun _ => yields_calls_flagTest

theorem yields_calls_alternativeTest {merge : Label} {head : BlockId} :
    Lower.Yields (job.alternativeTest merge head) fun test => test.calls = [] := by
  unfold alternativeTest
  split
  · split
    · exact Lower.Yields.skip fun _ => yields_calls_flagTest
    · exact .reject
  · exact .reject

/-! ## Leaving a function -/

@[simp] theorem calls_emptyReturn : (job.emptyReturn scope).calls = [] := by
  unfold emptyReturn
  split
  · split
    · exact Ty.calls_default
    · rw [Target.Expr.calls]
  · exact Ty.calls_default

/-- Leaving a function calls at most the function of the loop around. -/
theorem yields_calls_jump {coord : Coord} :
    Lower.Yields (job.jump scope coord) fun steps =>
      ∀ call ∈ steps.calls, ∃ frame, scope.loop = some frame ∧ call = frame.heading := by
  unfold jump
  refine yields_calls_record.bind fun recording none => ?_
  split
  · split
    · next frame isLoop => exact .pure (by simp [none, isLoop])
    · exact .reject
  · split
    · exact .pure (by simp [none])
    · exact .pure (by simp [none])

theorem callsOfAll_returnAliases : Stmt.callsOfAll (job.returnAliases scope) = [] := by
  apply Stmt.callsOfAll_eq_nil_iff.2
  intro stmt member
  obtain ⟨param, -, found⟩ := List.mem_filterMap.1 member
  obtain ⟨target, -, found⟩ := Option.bind_eq_some_iff.1 found
  split at found
  · cases found
    simp [Stmt.calls]
  · cases found

/-- A return makes no call. -/
theorem yields_calls_ret {id : BlockId} {result : Option Operand} :
    Lower.Yields (job.ret scope id result) fun steps => steps.calls = [] := by
  have whole {answer : Target.Expr} (none : answer.calls = []) :
      Lower.Yields (job.record ⟨id, .exit⟩ >>= fun recording =>
        pure (recording ++ Script.ofStmts (job.returnAliases scope) ++ [Script.ret answer]))
        fun steps => steps.calls = [] :=
    yields_calls_record.bind fun recording nothing => .pure (by
      simp [nothing, none, callsOfAll_returnAliases])
  cases result with
  | none => exact whole (by rw [Target.Expr.calls])
  | some operand =>
      exact Lower.Yields.check.bind fun answer found => whole (calls_operand found)

/-- A conditional return makes the calls of the returned value only. -/
theorem yields_calls_returnIf {coords : CoordSet} :
    Lower.Yields (returnIf coords value) fun steps => steps.calls ⊆ value.calls := by
  unfold returnIf
  split
  · exact .pure (List.nil_subset _)
  · exact yields_calls_gate.bind fun test none => .pure (by
      simp [Stmt.onlyIf, Stmt.calls, none])

/-- After a loop, the function of the loop around it may be run again, and nothing else is called.
-/
theorem yields_calls_recurseAfter {label : Label} :
    Lower.Yields (job.recurseAfter scope label) fun steps =>
      ∀ call ∈ steps.calls, ∃ frame, scope.loop = some frame ∧ call = frame.heading := by
  unfold recurseAfter
  dsimp only
  split
  · exact .pure (by simp)
  · split
    · next frame isLoop =>
      refine yields_calls_returnIf.imp fun steps calls call member => ⟨frame, isLoop, ?_⟩
      simpa using calls member
    · exact .reject

/-- A loop is left without a call. -/
theorem yields_calls_returnAfter {label : Label} :
    Lower.Yields (job.returnAfter scope label) fun steps => steps.calls = [] := by
  refine yields_calls_returnIf.bind fun returning one =>
    yields_calls_returnIf.bind fun leaving two => .pure ?_
  rw [Script.calls_append, List.append_eq_nil_iff]
  exact ⟨by simpa using one, by simpa using two⟩

/-- A loop is run by the call that its function takes. -/
theorem calls_runLoop {frame : LoopFrame} {label : Label} :
    (runLoop frame label).calls = [frame.heading] := by
  unfold runLoop
  split
  · simp
  · simp [Stmt.calls]

/-- The calls in what some instructions have become. -/
def Lowered.calls (lowered : Lowered) : List (String × Nat) :=
  lowered.steps.calls ++ lowered.condition.elim [] Target.Expr.calls

/-! ## Introductions -/

/-- A block is opened without a call. -/
theorem calls_openBlock {id : BlockId} {defined : List String} {list : List (String × Binding)}
    (opens : job.openBlock id defined scope list = .ok (steps, after)) :
    after.loop = scope.loop ∧ steps.calls = [] := by
  induction list generalizing scope steps with
  | nil =>
      cases opens
      exact ⟨rfl, Script.calls_nil⟩
  | cons first rest ih =>
      obtain ⟨name, binding⟩ := first
      unfold openBlock at opens
      split at opens
      · obtain ⟨loop, none⟩ := ih opens
        exact ⟨loop, none⟩
      · cases binding with
        | mutable =>
            obtain ⟨type, -, opens⟩ := bind_eq_ok_iff.1 opens
            obtain ⟨⟨more, last⟩, opened, same⟩ := bind_eq_ok_iff.1 opens
            cases same
            obtain ⟨loop, none⟩ := ih opened
            exact ⟨loop, by simp [none]⟩
        | const => cases opens

/-- The locals of the entry are introduced without a call. -/
theorem calls_introduceEntry {list : List (String × Binding)}
    (introduces : job.introduceEntry scope list = .ok (steps, after)) :
    after.loop = scope.loop ∧ steps.calls = [] := by
  induction list generalizing scope steps with
  | nil =>
      cases introduces
      exact ⟨rfl, Script.calls_nil⟩
  | cons first rest ih =>
      obtain ⟨name, binding⟩ := first
      unfold introduceEntry at introduces
      split at introduces
      · obtain ⟨⟨more, last⟩, introduced, same⟩ := bind_eq_ok_iff.1 introduces
        cases same
        obtain ⟨loop, none⟩ := ih introduced
        exact ⟨loop, by simp [none]⟩
      · obtain ⟨type, -, introduces⟩ := bind_eq_ok_iff.1 introduces
        obtain ⟨⟨more, last⟩, introduced, same⟩ := bind_eq_ok_iff.1 introduces
        cases same
        obtain ⟨loop, none⟩ := ih introduced
        exact ⟨loop, by simp [none]⟩
      · obtain ⟨loop, none⟩ := ih introduces
        exact ⟨loop, none⟩

/-- The end that closes a body calls nothing. -/
theorem callsOfAll_closed : Stmt.callsOfAll (job.closed scope steps) = steps.calls := by
  unfold closed
  split <;> simp

end Job

end GotoFree
