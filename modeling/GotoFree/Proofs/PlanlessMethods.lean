import GotoFree.Proofs.CellLocals
import GotoFree.Proofs.Plans
import GotoFree.Proofs.TreeJudgements

/-!
# Methods without a plan

The plan of a method that has none makes a cell for each declared local where the method is entered.
No step of lowering takes such a cell out of the scope or makes another binding of it, so every part
of the method is lowered in the scope of the entry, within the loop around the part
(`Job.bars_tree`). So a method without a plan that mentions declared locals only is not rejected for
a binding (`Lower.method_without_plan`), and neither is a program of such methods: the local that
the entry method loses with its argument vector is mentioned by identity instructions only, and
those have no argument to copy (`Program.lower_without_plans`).
-/

namespace GotoFree

open Target (Script)

/-! ## Trees -/

namespace Job

open Lower Rejection

variable {job : Job} {scope : Scope}

theorem bars_flagTest {flags : List Int} :
    Bars IsBindingFault (flagTest flags) fun _ => True := by
  unfold flagTest
  split
  · exact .pure trivial
  · exact .defect

theorem bars_gate {coords : CoordSet} : Bars IsBindingFault (gate coords) fun _ => True :=
  (Bars.mapM fun _ _ => .flag).bind fun _ _ => bars_flagTest

theorem bars_jump {coord : Coord} : Bars IsBindingFault (job.jump scope coord) fun _ => True := by
  unfold jump
  refine (Bars.of_succeeds (succeeds_record coord)).bind fun recording _ => ?_
  split
  · split
    · exact .pure trivial
    · exact .reject not_isBindingFault_internal
  · split <;> exact .pure trivial

theorem bars_returnIf {coords : CoordSet} {value : Target.Expr} :
    Bars IsBindingFault (returnIf coords value) fun _ => True := by
  unfold returnIf
  split
  · exact .pure trivial
  · exact bars_gate.bind fun _ _ => .pure trivial

theorem bars_recurseAfter {label : Label} :
    Bars IsBindingFault (job.recurseAfter scope label) fun _ => True := by
  unfold recurseAfter
  dsimp only
  split
  · exact .pure trivial
  · split
    · exact bars_returnIf
    · exact .reject not_isBindingFault_internal

theorem bars_returnAfter {label : Label} :
    Bars IsBindingFault (job.returnAfter scope label) fun _ => True :=
  bars_returnIf.bind fun _ _ => bars_returnIf.bind fun _ _ => .pure trivial

theorem bars_alternativeTest {label : Label} {head : BlockId} :
    Bars IsBindingFault (job.alternativeTest label head) fun _ => True := by
  unfold alternativeTest
  split
  · split
    · exact (Bars.mapM fun _ _ => .flag).bind fun _ _ => bars_flagTest
    · exact .reject not_isBindingFault_internal
  · exact .reject not_isBindingFault_internal

/-- A step fails for no binding if all locals are in cells, and they stay there. -/
theorem preserves_hasCells : job.Preserves job.HasCells fun step known =>
    Bars IsBindingFault step known where
  pure := .pure
  bind := .bind
  internal := .reject not_isBindingFault_internal
  insideLoop has := has.insideLoop _
  block has := (bars_block has).imp fun _ same => same ▸ has
  jump := bars_jump
  gate := bars_gate
  alternativeTest := bars_alternativeTest
  addHelper := .of_succeeds .addHelper
  recurseAfter := bars_recurseAfter
  returnAfter := bars_returnAfter

/-- A tree fails for no binding if all locals are in cells. -/
theorem bars_tree {scope : Scope} (has : job.HasCells scope) {tree : Tree} :
    Bars IsBindingFault (job.tree scope tree) fun answer => job.HasCells answer.2 :=
  preserves_hasCells.tree has

/-- Declared entry locals that are cells are introduced, each of them with an argument or with the
first value of its type. -/
theorem exists_introduceEntry {list : List (String × Binding)} (cells : ∀ entry ∈ list,
      entry.2 = .mutable ∧ (job.method.localType? entry.1).isSome = true) :
    ∃ steps after, job.introduceEntry scope list = .ok (steps, after) ∧
      ∀ name, name ∈ list.map Prod.fst ∨ scope.binding? name = some .mutable →
        after.binding? name = some .mutable := by
  induction list generalizing scope with
  | nil => exact ⟨_, _, rfl, by simp⟩
  | cons first rest ih =>
      obtain ⟨name, binding⟩ := first
      obtain ⟨rfl, declared⟩ := cells _ List.mem_cons_self
      obtain ⟨type, isType⟩ := Option.isSome_iff_exists.1 declared
      obtain ⟨steps, after, made, bound⟩ := @ih (scope.bind name .mutable) fun entry member =>
        cells entry (List.mem_cons_of_mem _ member)
      have kept (other : String) (known : other ∈ ((name, Binding.mutable) :: rest).map Prod.fst ∨
          scope.binding? other = some .mutable) : after.binding? other = some .mutable := by
        refine bound other ?_
        rw [Scope.binding?_bind]
        by_cases same : name = other
        · exact .inr (if_pos same)
        · rw [if_neg same]
          refine known.imp_left fun member => ?_
          exact (List.mem_cons.1 member).resolve_left (Ne.symm same)
      have isLocal : job.localType name = .ok type := by
        rw [localType, isType]
        rfl
      unfold introduceEntry
      cases job.method.incoming.find? fun param => param.target = some name with
      | some param =>
          refine ⟨Binding.introduce .mutable name (.var param.name) :: steps, after, ?_, kept⟩
          simp [made]
      | none =>
          refine ⟨Script.bindCell name type.default :: steps, after, ?_, kept⟩
          simp [isLocal, made]

end Job

/-! ## Methods and programs -/

namespace Method

variable {method : Method}

/-- Every local that an instruction of a method mentions is declared. -/
def MentionsDeclared (method : Method) : Prop :=
  ∀ instr ∈ method.instrs, ∀ name, instr.Mentions name → (method.localType? name).isSome = true

/-- Every local that a method mentions is declared, apart from those that would take an argument
that it does not have. -/
def FindsLocals (method : Method) : Prop :=
  ∀ instr ∈ method.instrs, ∀ name, instr.Mentions name → (method.localType? name).isSome = true ∨
    ∃ source, instr = .identity name source ∧ method.hasSource source = false

/-- A method that mentions declared locals only finds them. -/
theorem MentionsDeclared.findsLocals (declared : method.MentionsDeclared) : method.FindsLocals :=
  fun instr member name mentions => .inl (declared instr member name mentions)

/-- The locals that are left without the vector are all but that of its last copy. -/
theorem mem_locals_withoutArguments {declared : Declared} (member : declared ∈ method.locals)
    (other : ¬ method.CopiesLast declared.name) :
    declared ∈ method.withoutArguments.locals := by
  unfold withoutArguments
  dsimp only
  split
  · exact member
  · next name isLast =>
    refine List.mem_filter.2 ⟨member, decide_eq_true fun same => other ?_⟩
    rw [same]
    exact get?_argumentLocals_eq_some_iff.1 isLast

/-- A method without a plan has none without its vector. -/
theorem plan_withoutArguments (planless : method.plan = none) :
    method.withoutArguments.plan = none := by
  unfold withoutArguments
  dsimp only
  split
  · exact planless
  · rw [planless]
    rfl

/-- A static method without its vector takes no argument. -/
theorem hasSource_withoutArguments (isStatic : method.isStatic = true) {source : Source} :
    method.withoutArguments.hasSource source = false := by
  cases source <;> simp [hasSource, isStatic]

/-- An entry method that does not use its argument vector has lost one local at most, and only
identity instructions without an argument mention that. -/
theorem MentionsDeclared.withoutArguments (declared : method.MentionsDeclared)
    (isStatic : method.isStatic = true) (unused : method.argumentUse? = none) :
    method.withoutArguments.FindsLocals := by
  intro instr member name mentions
  rw [method.strips_withoutArguments.instrs_eq] at member
  obtain ⟨original, among, rfl⟩ := List.mem_map.1 member
  obtain ⟨_, -, idle⟩ | ⟨-, same⟩ := idles_iff.2 (Eq.refl (dropArgumentCopy original))
  · rw [idle] at mentions
    exact absurd mentions Instr.not_mentions_nop
  · rw [same] at mentions ⊢
    by_cases last : method.CopiesLast name
    · obtain ⟨target, source, rfl⟩ :=
        argumentUse?_eq_none_iff.1 unused name last original among mentions
      obtain rfl := Instr.mentions_identity.1 mentions
      exact .inr ⟨source, rfl, hasSource_withoutArguments isStatic⟩
    · obtain ⟨found, inside, rfl⟩ :=
        isSome_localType?_iff.1 (declared original among name mentions)
      exact .inl (isSome_localType?_iff.2 ⟨found, mem_locals_withoutArguments inside last, rfl⟩)

end Method

namespace Lower

open Rejection

variable {setting : Setting} {id : MethodId} {method : Method}

theorem bars_structured :
    Bars IsBindingFault (structured id method) fun _ => True := by
  cases built : BlockGraph.ofBlocks method.entry method.blocks with
  | error fault =>
      simp only [structured, built]
      exact .reject not_isBindingFault_graph
  | ok graph =>
      obtain ⟨forest, tree, flags, -, -, same⟩ := @structured_eq id method graph built
      rw [same]
      exact (Bars.of_succeeds (.forM fun _ _ => .warn)).bind fun _ (_ : True) => .pure trivial

/-- A method without a plan is not rejected for a binding. -/
theorem bars_method (planless : method.plan = none) (finds : method.FindsLocals) :
    Bars IsBindingFault (Lower.method setting id method) fun _ => True := by
  unfold Lower.method
  refine Bars.request.bind fun function _ => ?_
  refine (Bars.of_succeeds (.check (Method.checkedPlan_of_none planless) rfl)).bind ?_
  rintro _ rfl
  refine bars_structured.bind fun ⟨tree, flags⟩ _ =>
    (Bars.of_succeeds .modify).bind fun _ (_ : True) => ?_
  let job : Job := ⟨setting, id, method, function, .allCells method.locals, flags⟩
  have cells (entry : String × Binding) (member : entry ∈ job.plan.entry.entries) :
      entry.2 = .mutable ∧ (job.method.localType? entry.1).isSome = true := by
    have declared := Method.mem_keys_allCells.1 (List.mem_map_of_mem member)
    have found := SortedMap.get?_eq_some_iff.2 member
    rw [Method.get?_allCells, if_pos declared] at found
    exact ⟨(Option.some.inj found).symm, declared⟩
  obtain ⟨entry, scope, made, bound⟩ := @Job.exists_introduceEntry job .empty _ cells
  refine (Bars.of_succeeds (.check made rfl)).bind ?_
  rintro _ rfl
  have has : job.HasCells scope := by
    refine ⟨rfl, fun instr member name mentions => ?_⟩
    refine (finds instr member name mentions).imp_left fun declared => ⟨declared, ?_⟩
    exact bound name (.inl (Method.mem_keys_allCells.2 declared))
  exact (Job.bars_tree has).bind fun _ _ => (Bars.of_succeeds .get).bind fun _ (_ : True) =>
    .pure trivial

/-- Whatever the blocks of a method are, and whatever was lowered before it: if it has no plan and
mentions declared locals only, it is not rejected for the binding of a local. -/
theorem method_without_plan (planless : method.plan = none) (declared : method.MentionsDeclared)
    {progress : Progress} {reason : Rejection}
    (rejects : Lower.method setting id method progress = .error (.rejected reason)) :
    ¬ reason.IsBindingFault :=
  (bars_method planless declared.findsLocals).excludes progress reason rejects

/-- A method that defines its local twice in a loop, and throws it behind the loop. -/
def twiceDefiningMethod (plan : Option BindingPlan) : Method where
  className := "A"
  name := "throw"
  isStatic := true
  params := []
  returnType := .void
  locals := [⟨"x", .int⟩]
  entry := ⟨0⟩
  blocks := [
    ⟨⟨0⟩, [.goto], [⟨1⟩]⟩,
    ⟨⟨1⟩, [.assign (.var "x") (.use (.int 1)), .assign (.var "x") (.use (.int 2)),
      .branch .nondet], [⟨1⟩, ⟨2⟩]⟩,
    ⟨⟨2⟩, [.throw (.var "x")], []⟩]
  plan := plan

/-- Without a plan the method is rejected for what it throws. With a plan that fixes its local, it
is rejected for the second definition. -/
theorem method_without_plan_throwing : ∃ setting : Setting,
    (∃ reason, Lower.method setting default (twiceDefiningMethod none) .start =
      .error (.rejected reason) ∧ ¬ reason.IsBindingFault) ∧
    ∃ reason, Lower.method setting default
      (twiceDefiningMethod (some ⟨.ofList [("x", .const)], .empty⟩)) .start =
        .error (.rejected reason) ∧ reason.IsBindingFault := by
  have declared : (twiceDefiningMethod none).MentionsDeclared := by
    have only : ∀ instr ∈ (twiceDefiningMethod none).instrs, ∀ name,
        instr.Mentions name → name = "x" := by
      simp [twiceDefiningMethod, Method.instrs, Instr.mentions_iff, Instr.uses, Instr.defines?,
        Place.locals, Expr.locals, Operand.var?]
    intro instr member name mentions
    rw [only instr member name mentions]
    rfl
  have fails {α : Type} {result : Except Failure α} {reason : Rejection}
      (same : result.map (fun _ => ()) = .error (.rejected reason)) :
      result = .error (.rejected reason) := by
    cases result with
    | ok => cases same
    | error => exact congrArg _ (Except.error.inj same)
  let setting : Setting := ⟨⟨[], .empty, default⟩, ⟨.empty, .empty, .empty⟩, .functional⟩
  have throws : Lower.method setting default (twiceDefiningMethod none) .start =
      .error (.rejected (.unsupported default "exception" "throw x" ["int"])) :=
    fails (by decide +kernel)
  have again : Lower.method setting default
      (twiceDefiningMethod (some ⟨.ofList [("x", .const)], .empty⟩)) .start =
      .error (.rejected (.malformed ("CONST local " ++ "x" ++ " of " ++ (default : MethodId).text ++
        " is defined more than once"))) :=
    fails (by decide +kernel)
  exact ⟨setting, ⟨_, throws, method_without_plan rfl declared throws⟩,
    _, again, IsBindingComplaint.definedAgain "x" default⟩

theorem bars_queued {steps : Nat} (finds : ∀ id method,
      setting.program.method? id = some method → method.plan = none ∧ method.FindsLocals) :
    Bars IsBindingFault (queued setting steps) fun _ => True := by
  induction steps with
  | zero => exact .pure trivial
  | succ steps ih =>
      refine (Bars.of_succeeds .get).bind fun progress (_ : True) => ?_
      split
      · exact .pure trivial
      · refine (Bars.of_succeeds fun _ => ⟨_, _, rfl, trivial⟩).bind fun _ (_ : True) => ?_
        split
        · exact .reject not_isBindingFault_internal
        · next method isMethod =>
          obtain ⟨planless, isFound⟩ := finds _ method isMethod
          exact (bars_method planless isFound).bind fun _ _ => ih.bind fun _ _ => .pure trivial

theorem bars_program (finds : ∀ id method,
      setting.program.method? id = some method → method.plan = none ∧ method.FindsLocals) :
    Bars IsBindingFault (Lower.program setting) fun _ => True := by
  unfold Lower.program
  dsimp only
  split
  · exact .reject (not_isBindingFault_malformed (by simp) (by simp))
  · exact Bars.request.bind fun _ _ => (bars_queued finds).bind fun _ _ =>
      (Bars.of_succeeds .get).bind fun _ (_ : True) => .pure trivial

end Lower

namespace Program

open Rejection

variable {program : Program}

/-- Dropping the vector fails for no binding. -/
theorem excludes_withoutArguments : Excludes IsBindingFault program.withoutArguments := by
  unfold withoutArguments
  split
  · exact .error (not_isBindingFault_malformed (by simp) (by simp))
  · split
    · exact .error (not_isBindingFault_unsupported (by simp))
    · split
      · exact .ok
      · split
        · exact .error (not_isBindingFault_unsupported (by simp))
        · split
          · exact .error (not_isBindingFault_unsupported (by simp))
          · exact .ok

/-- The layout of a program is found without bindings. -/
theorem excludes_layout : Excludes IsBindingFault (Layout.ofProgram program) := by
  refine Excludes.bind (.mapM fun className _ => Excludes.bind ?_ fun _ _ => .ok) fun _ _ => .ok
  unfold Layout.fieldsOf
  dsimp only
  split
  · exact .error (not_isBindingFault_malformed (by simp) (by simp))
  · exact .ok

/-- A program whose methods have no plans and mention declared locals only is not rejected for the
binding of a local. -/
theorem lower_without_plans {model : ObjectModel} {entry : Option MethodId} {reason : Rejection}
    (planless : ∀ id method, program.method? id = some method →
      method.plan = none ∧ method.MentionsDeclared)
    (rejects : program.lower model entry = .error (.rejected reason)) :
    ¬ reason.IsBindingFault := by
  let started : Program := { program with entry := entry.getD program.entry }
  unfold lower at rejects
  cases chosen : started.withoutArguments with
  | error fault =>
      simp only [started] at chosen
      simp only [chosen, Except.mapError, error_bind] at rejects
      cases rejects
      exact excludes_withoutArguments _ chosen
  | ok prepared =>
      have finds (id : MethodId) (method : Method)
          (isMethod : prepared.method? id = some method) :
          method.plan = none ∧ method.FindsLocals := by
        obtain ⟨original, isEntry, isStatic, ⟨-, rfl⟩ | ⟨-, unused, rfl⟩⟩ :=
          withoutArguments_eq_ok_iff.1 chosen
        · obtain ⟨none, declared⟩ := planless id method isMethod
          exact ⟨none, declared.findsLocals⟩
        · rw [method?, SortedMap.get?_insert] at isMethod
          split at isMethod
          · next same =>
            cases isMethod
            obtain ⟨none, declared⟩ := planless _ original isEntry
            exact ⟨Method.plan_withoutArguments none, declared.withoutArguments isStatic unused⟩
          · obtain ⟨none, declared⟩ := planless id method isMethod
            exact ⟨none, declared.findsLocals⟩
      simp only [started] at chosen
      cases made : Layout.ofProgram prepared with
      | error fault =>
          simp only [chosen, made, Except.mapError, ok_bind] at rejects
          cases rejects
          exact excludes_layout _ made
      | ok layout =>
          simp only [chosen, made, Except.mapError, ok_bind, lowerWith, StateT.run'] at rejects
          cases lowered : Lower.program ⟨prepared, layout, model⟩ .start with
          | ok answer =>
              rw [lowered] at rejects
              cases rejects
          | error failure =>
              rw [lowered] at rejects
              cases rejects
              exact (Lower.bars_program finds).excludes _ _ lowered

end Program

end GotoFree
