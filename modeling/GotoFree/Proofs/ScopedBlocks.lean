import GotoFree.Proofs.Arguments
import GotoFree.Proofs.ScopedCalls

/-!
# Scoped blocks

The instructions of a block lead from scope to scope (`Job.Continues`). So the steps of a block are
scoped, with the functions that are made for it, and so are the jumps and returns at its end.
-/

namespace GotoFree

open Target (Kinds Script Signature Stmt)

namespace Job

variable {job : Job} {scope middle after : Scope} {later : Agenda} {unit : Option Nat}
  {number : Nat} {source : Instr} {made more : List Target.Function}
  {holds others : List Signature → Prop} {signatures : List Signature} {names : List String}

/-- Code leads from a scope to another one in the function of the same loop, and holds what it
promises. -/
structure Continues (job : Job) (later : Agenda) (scope after : Scope)
    (made : List Target.Function) (holds : List Signature → Prop) : Prop where
  planned : job.Planned after
  loop : after.loop = scope.loop
  promises : job.Promises later scope.loop made holds

/-- Code in a row goes on as its parts do. -/
theorem Continues.append (first : job.Continues later scope middle made holds)
    (second : job.Planned middle → job.Continues later middle after more others) :
    job.Continues later scope after (made ++ more) fun signatures =>
      holds signatures ∧ others signatures := by
  obtain ⟨planned, loop, promises⟩ := second first.planned
  exact ⟨planned, loop.trans first.loop, first.promises.append (first.loop ▸ promises)⟩

theorem Continues.imp (first : job.Continues later scope after made holds)
    (weaken : ∀ signatures, job.Knows later scope.loop signatures → holds signatures →
      others signatures) : job.Continues later scope after made others :=
  ⟨first.planned, first.loop, first.promises.imp weaken⟩

/-! ## Flags -/

/-- A test of the control cell is scoped wherever there is one. -/
def Tested (job : Job) (scope : Scope) (test : Target.Expr) : Prop :=
  ∀ signatures names, job.loopParams scope ⊆ names →
    test.Scoped signatures (job.kinds.of names)

/-- Recording a coordinate carries the context on. -/
theorem yields_record {coord : Coord} : Lower.Yields (job.record coord) fun steps =>
    ∀ signatures scope, job.Carries signatures scope scope steps := by
  unfold record
  split
  · next recorded =>
    refine Lower.Yields.skip fun flag => .pure fun signatures scope => .stmt fun names shown => ?_
    exact .assign (lookup_control shown (hasControlCell_of_recorded recorded)) .int
  · exact .pure fun _ _ => .nil

/-- A test on flags is scoped where the control cell is. -/
theorem yields_flagTest (scope : Scope) (has : job.hasControlCell = true) {flags : List Int} :
    Lower.Yields (flagTest flags) (job.Tested scope) := by
  unfold flagTest
  split
  · next test isTest =>
    refine .pure fun signatures names shown => ?_
    exact Target.Expr.Scoped.anyOf? (.contentOf (lookup_control shown has)) isTest
  · exact nofun

/-- A gate is scoped where the control cell is. -/
theorem yields_gate (scope : Scope) (has : job.hasControlCell = true) {coords : CoordSet} :
    Lower.Yields (gate coords) (job.Tested scope) :=
  Lower.Yields.skip fun _ => yields_flagTest scope has

/-- The test of an alternative is scoped where the control cell is. -/
theorem yields_alternativeTest (scope : Scope) (has : job.hasControlCell = true) {merge : Label}
    {head : BlockId} :
    Lower.Yields (job.alternativeTest merge head) (job.Tested scope) := by
  unfold alternativeTest
  split
  · split
    · exact Lower.Yields.skip fun _ => yields_flagTest scope has
    · exact .reject
  · exact .reject

/-! ## Leaving a function -/

theorem scoped_emptyReturn {context : Target.Context} :
    (job.emptyReturn scope).Scoped signatures context := by
  unfold emptyReturn
  split
  · split
    · exact Ty.scoped_default
    · exact .unit
  · exact Ty.scoped_default

/-- The function of a loop is called with the names of its parameters, which stand for the same. -/
theorem scoped_again {frame : LoopFrame} (known : job.signatureOf frame ∈ signatures)
    (shown : frame.params ⊆ names) : frame.again.Scoped signatures (job.kinds.of names) := by
  refine .call known (fun arg member => ?_) fun index name isCell => ?_
  · obtain ⟨name, isParam, rfl⟩ := List.mem_map.1 member
    exact .var (Kinds.lookup_of (shown isParam))
  · obtain ⟨param, isParam, same⟩ := List.getElem?_map.symm.trans isCell |> Option.map_eq_some_iff.1
    obtain ⟨rfl, kind⟩ := Prod.mk.inj same
    refine ⟨param, by rw [List.getElem?_map, isParam]; rfl, ?_⟩
    rw [Kinds.lookup_of (shown (List.mem_of_getElem? isParam)), kind]

theorem yields_jump (planned : job.Planned scope) {coord : Coord} :
    Lower.Yields (job.jump scope coord) fun steps => ∀ signatures,
      job.Knows later scope.loop signatures → job.Carries signatures scope scope steps := by
  unfold jump
  refine yields_record.bind fun recording recorded => ?_
  split
  · split
    · next frame isLoop =>
      refine .pure fun signatures knows => (recorded signatures scope).append ?_
      refine .stmt fun names shown => .ret (scoped_again (knows.loop frame isLoop) ?_)
      exact List.Subset.trans (planned.frame frame isLoop) shown
    · exact .reject
  · split
    · refine .pure fun signatures knows => (recorded signatures scope).append ?_
      exact .stmt fun names shown => .ret scoped_emptyReturn
    · exact .pure fun signatures knows => recorded signatures scope

/-- A return ties fixed locals to the arguments that they were copied from. -/
theorem admits_returnAliases (fair : job.Fair) (planned : job.Planned scope)
    (shown : job.loopParams scope ⊆ names) :
    ∀ stmt ∈ job.returnAliases scope, job.Admits signatures names stmt := by
  intro stmt member
  obtain ⟨param, isParam, found⟩ := List.mem_filterMap.1 member
  obtain ⟨target, isTarget, found⟩ := Option.bind_eq_some_iff.1 found
  split at found
  · next both =>
    cases found
    have bound : scope.binding? target = some .const := by
      simpa using (Bool.and_eq_true_iff.1 both).2
    exact .aliased (.var (lookup_incoming fair shown (List.mem_map_of_mem isParam)))
      (.var (lookup_local fair planned shown bound))
  · cases found

theorem yields_carries_ret (fair : job.Fair) (planned : job.Planned scope) {id : BlockId}
    {value : Option Operand} :
    Lower.Yields (job.ret scope id value) fun steps =>
      ∀ signatures, job.Carries signatures scope scope steps := by
  have whole {result : Target.Expr} (ready : ∀ signatures names, job.loopParams scope ⊆ names →
      result.Scoped signatures (job.kinds.of names)) :
      Lower.Yields (job.record ⟨id, .exit⟩ >>= fun recording =>
        pure (recording ++ Script.ofStmts (job.returnAliases scope) ++ [Script.ret result]))
        fun steps => ∀ signatures, job.Carries signatures scope scope steps := by
    refine yields_record.bind fun recording recorded => .pure fun signatures => ?_
    refine ((recorded signatures scope).append (.ofStmts fun names shown => ?_)).append
      (.stmt fun names shown => .ret (ready signatures names shown))
    exact admits_returnAliases fair planned shown
  cases value with
  | none => exact whole fun _ _ _ => .unit
  | some operand =>
      exact Lower.Yields.check.bind fun result found => whole fun signatures names shown =>
        (ready_operand fair planned shown found).inScope

/-! ## Instructions -/

theorem gives_continues_plainInstr (fair : job.Fair) :
    Lower.Gives (·.Within job.setting.program later (some number)) (job.plainInstr scope source)
      fun answer made => job.Planned scope → job.Continues later scope answer.2 made
        fun signatures => job.Carries signatures scope answer.2 answer.1 := by
  have stays {steps : Script} (carries : job.Planned scope → ∀ signatures,
      job.Carries signatures scope scope steps) : job.Planned scope →
      job.Continues later scope scope [] fun signatures =>
        job.Carries signatures scope scope steps := fun planned =>
    ⟨planned, rfl, .nil fun signatures _ => carries planned signatures⟩
  cases source with
  | assign target value =>
      refine (gives_backed_expr fair).bind fun computed => ?_
      refine Lower.Answers.bind (quiet_assign.under fun planned => yields_keeps_assign fair planned)
        fun answer => .pure ?_
      intro keeps made backed planned
      obtain ⟨isPlanned, loop, fits⟩ := keeps planned
      rw [List.append_nil]
      refine ⟨isPlanned, loop, (backed planned).imp fun signatures knows computes => ?_⟩
      intro names shown
      obtain ⟨before, value, after⟩ := computes names shown
      obtain ⟨stores, reaches, closing⟩ :=
        fits signatures _ (List.Subset.trans shown Script.subset_opened) value
      rw [Script.opened_append, Script.opened_append, Script.opened_ofStmts]
      refine ⟨Script.fits_append_iff.2 ⟨Script.fits_append_iff.2 ⟨before, stores⟩,
        Script.fits_ofStmts_iff.2 (List.forall_mem_append.2 ⟨fun stmt member => ?_, ?_⟩)⟩, reaches⟩
      · rw [Script.opened_append]
        exact (after stmt member).mono (Kinds.extends_of Script.subset_opened)
      · rw [Script.opened_append]
        exact closing
  | call site =>
      refine (gives_backed_call fair).bind fun answer => ?_
      split
      · next computed =>
        refine .pure fun made found planned => ?_
        obtain ⟨none, -⟩ | ⟨_, ⟨⟩, backed⟩ := found planned
        · cases none
        · rw [List.append_nil]
          refine ⟨planned, rfl, backed.imp fun signatures knows computes names shown => ?_⟩
          have computed := computes names shown
          rw [Script.opened_append, Script.opened_append, Script.opened_ofStmts]
          refine ⟨Script.fits_append_iff.2 ⟨Script.fits_append_iff.2 ⟨computed.before,
            .expr computed.value.inScope, trivial⟩, Script.fits_ofStmts_iff.2 ?_⟩,
            List.Subset.trans shown Script.subset_opened⟩
          rw [Script.opened_append]
          exact computed.after
      · refine .pure fun made found planned => ?_
        obtain ⟨-, rfl⟩ | ⟨_, same, -⟩ := found planned
        · exact stays (fun _ _ => .nil) planned
        · cases same
  | nop unreachable =>
      cases unreachable with
      | true => exact .pure (stays fun _ _ => .stmt fun _ _ => .assert .bool)
      | false => exact .pure (stays fun _ _ => .nil)
  | aliased left right =>
      refine (Lower.Answers.check fun value found => found).bind fun left =>
        (Lower.Answers.check fun value found => found).bind fun right => .pure ?_
      intro isRight isLeft
      refine stays fun planned signatures => .stmt fun names shown => .aliased ?_ ?_
      · exact (ready_followPath fair planned shown isLeft).inScope
      · exact (ready_followPath fair planned shown isRight).inScope
  | throw | identity | branch | goto | ret => exact .reject

/-- The condition of a branch is scoped after the steps of its block. -/
structure Runs (job : Job) (signatures : List Signature) (scope : Scope) (lowered : Lowered) :
    Prop where
  carries : job.Carries signatures scope lowered.scope lowered.steps
  condition : ∀ names, job.loopParams scope ⊆ names → ∀ test ∈ lowered.condition,
    test.Scoped signatures (job.kinds.of (Script.opened names lowered.steps))

theorem gives_continues_instr (fair : job.Fair) {id : BlockId} :
    Lower.Gives (·.Within job.setting.program later (some number)) (job.instr id scope source)
      fun lowered made => job.Planned scope → job.Continues later scope lowered.scope made
        fun signatures => job.Runs signatures scope lowered := by
  have plain {made : List Target.Function} {steps : Script} {after : Scope}
      (continues : job.Continues later scope after made fun signatures =>
        job.Carries signatures scope after steps) :
      job.Continues later scope after made fun signatures =>
        job.Runs signatures scope (.plain (steps, after)) :=
    continues.imp fun signatures _ carries => ⟨carries, nofun⟩
  have stays (planned : job.Planned scope) : job.Continues later scope scope [] fun signatures =>
      job.Runs signatures scope (.plain ([], scope)) :=
    plain ⟨planned, rfl, .nil fun _ _ => .nil⟩
  have others : Lower.Gives (·.Within job.setting.program later (some number))
      (do return Lowered.plain (← job.plainInstr scope source)) fun lowered made =>
        job.Planned scope → job.Continues later scope lowered.scope made
          fun signatures => job.Runs signatures scope lowered := by
    refine (gives_continues_plainInstr fair).bind fun answer =>
      .pure fun made continues planned => ?_
    rw [List.append_nil]
    exact plain (continues planned)
  cases source with
  | branch condition =>
      refine (gives_backed_expr fair).bind fun computed => .pure fun made backed planned => ?_
      rw [List.append_nil]
      refine ⟨planned, rfl, (backed planned).imp fun signatures knows computes => ⟨?_, ?_⟩⟩
      · intro names shown
        have computed := computes names shown
        rw [Script.opened_append, Script.opened_ofStmts]
        exact ⟨Script.fits_append_iff.2 ⟨computed.before,
          Script.fits_ofStmts_iff.2 computed.after⟩, List.Subset.trans shown Script.subset_opened⟩
      · rintro names shown _ ⟨⟩
        rw [Script.opened_append, Script.opened_ofStmts]
        exact (computes names shown).value.inScope
  | goto => exact .pure stays
  | ret value =>
      refine Lower.Answers.bind (quiet_ret.under fun planned => yields_carries_ret fair planned)
        fun steps => .pure ?_
      exact fun carries planned => ⟨planned, rfl, .nil fun signatures _ =>
        ⟨carries planned signatures, nofun⟩⟩
  | identity target from_ =>
      unfold instr
      dsimp only
      split
      · exact .pure stays
      · have isParam : Lower.Yields (job.nameOfSource from_ (.identity target from_))
            (· ∈ job.method.incomingNames) := fun progress answer after made => by
          obtain ⟨-, -, param, found, rfl⟩ := nameOfSource_eq_ok_iff.1 made
          exact List.mem_map_of_mem (List.mem_of_find?_eq_some found)
        refine (quiet_nameOfSource.yields isParam).bind fun param => ?_
        refine (Lower.Answers.check fun value found => found).bind fun answer => .pure ?_
        intro stored isParam planned
        obtain ⟨isPlanned, loop, fits⟩ := keeps_store fair planned stored
        refine plain ⟨isPlanned, loop, .nil fun signatures _ names shown => ?_⟩
        obtain ⟨stores, reaches, -⟩ := fits signatures names shown
          ⟨.var (lookup_incoming fair shown isParam), nofun⟩
        exact ⟨stores, reaches⟩
  | assign | call | nop | throw | aliased => exact others

/-! ## Blocks -/

theorem gives_continues_instrs (fair : job.Fair) {id : BlockId} {index : Nat}
    {list : List Instr} :
    Lower.Gives (·.Within job.setting.program later none) (job.instrs id index scope list)
      fun lowered made => job.Planned scope → job.Continues later scope lowered.scope made
        fun signatures => job.Runs signatures scope lowered := by
  induction list generalizing index scope with
  | nil =>
      exact .pure fun planned =>
        ⟨planned, rfl, .nil fun signatures _ => ⟨.nil, nofun⟩⟩
  | cons first rest ih =>
      refine Lower.gives_enter_bind (fun number => gives_continues_instr fair) fun head =>
        ih.bind fun tail => .pure ?_
      intro more goesOn made _ starts planned
      rw [List.append_nil]
      refine ((starts planned).append goesOn).imp fun signatures _ both => ?_
      obtain ⟨one, other⟩ := both
      refine ⟨one.carries.append other.carries, fun names shown test member => ?_⟩
      have shownAfter := (one.carries names shown).2
      rw [Script.opened_append]
      cases branches : tail.condition with
      | some later =>
          rw [branches] at member
          cases member
          exact other.condition _ shownAfter test branches
      | none =>
          rw [branches] at member
          exact (one.condition names shown test member).mono
            (Kinds.extends_of Script.subset_opened)

/-- A local of the plan is introduced with a value. -/
theorem carries_introduce (fair : job.Fair) {name : String} {binding : Binding}
    {value : Target.Expr} (member : (name, binding) ∈ job.plan.locals)
    (ready : ∀ names, job.loopParams scope ⊆ names → job.Ready signatures names value) :
    job.Carries signatures scope (scope.bind name binding) [binding.introduce name value] :=
  fun names shown => fits_introduce fair member shown (ready names shown)

/-- Locals of the plan are introduced one after the other. -/
structure Introduces (job : Job) (scope after : Scope) (steps : Script) : Prop where
  planned : job.Planned after
  loop : after.loop = scope.loop
  carries : ∀ signatures, job.Carries signatures scope after steps

theorem Introduces.bind {name : String} {binding : Binding} {value : Target.Expr} {steps : Script}
    (fair : job.Fair) (member : (name, binding) ∈ job.plan.locals)
    (ready : ∀ signatures names, job.loopParams scope ⊆ names → job.Ready signatures names value)
    (rest : job.Introduces (scope.bind name binding) after steps) :
    job.Introduces scope after (binding.introduce name value :: steps) where
  planned := rest.planned
  loop := rest.loop
  carries signatures :=
    (carries_introduce fair member (ready signatures)).append (rest.carries signatures)

theorem ready_default {type : Ty} : job.Ready signatures names type.default :=
  ⟨Ty.scoped_default, by cases type <;> exact nofun⟩

theorem introduces_openBlock (fair : job.Fair) {id : BlockId} {defined : List String}
    {list : List (String × Binding)} {steps : Script} (planned : job.Planned scope)
    (locals : list ⊆ job.plan.locals)
    (opens : job.openBlock id defined scope list = .ok (steps, after)) :
    job.Introduces scope after steps := by
  induction list generalizing scope steps with
  | nil =>
      cases opens
      exact ⟨planned, rfl, fun _ => .nil⟩
  | cons first rest ih =>
      obtain ⟨name, binding⟩ := first
      obtain ⟨member, others⟩ := List.cons_subset.1 locals
      unfold openBlock at opens
      split at opens
      · obtain ⟨isPlanned, loop, carries⟩ := ih (planned.postpone member) others opens
        exact ⟨isPlanned, loop, carries⟩
      · cases binding with
        | mutable =>
            obtain ⟨type, -, opens⟩ := bind_eq_ok_iff.1 opens
            obtain ⟨⟨more, last⟩, opened, same⟩ := bind_eq_ok_iff.1 opens
            cases same
            exact .bind fair member (fun _ _ _ => ready_default)
              (ih (planned.bind member) others opened)
        | const => cases opens

theorem introduces_introduceEntry (fair : job.Fair) {list : List (String × Binding)}
    {steps : Script} (planned : job.Planned scope) (locals : list ⊆ job.plan.locals)
    (introduces : job.introduceEntry scope list = .ok (steps, after)) :
    job.Introduces scope after steps := by
  induction list generalizing scope steps with
  | nil =>
      cases introduces
      exact ⟨planned, rfl, fun _ => .nil⟩
  | cons first rest ih =>
      obtain ⟨name, binding⟩ := first
      obtain ⟨member, others⟩ := List.cons_subset.1 locals
      unfold introduceEntry at introduces
      split at introduces
      · next param found =>
        obtain ⟨⟨more, last⟩, introduced, same⟩ := bind_eq_ok_iff.1 introduces
        cases same
        have incoming : param.name ∈ job.method.incomingNames :=
          List.mem_map_of_mem (List.mem_of_find?_eq_some found)
        exact .bind fair member
          (fun _ _ shown => ⟨.var (lookup_incoming fair shown incoming), nofun⟩)
          (ih (planned.bind member) others introduced)
      · obtain ⟨type, -, introduces⟩ := bind_eq_ok_iff.1 introduces
        obtain ⟨⟨more, last⟩, introduced, same⟩ := bind_eq_ok_iff.1 introduces
        cases same
        exact .bind fair member (fun _ _ _ => ready_default)
          (ih (planned.bind member) others introduced)
      · obtain ⟨isPlanned, loop, carries⟩ := ih (planned.postpone member) others introduces
        exact ⟨isPlanned, loop, carries⟩

theorem gives_continues_block (fair : job.Fair) {id : BlockId} :
    Lower.Gives (·.Within job.setting.program later none) (job.block scope id)
      fun lowered made => job.Planned scope → job.Continues later scope lowered.scope made
        fun signatures => job.Runs signatures scope lowered := by
  have locals : ((job.plan.blocks.get? id).getD .empty).entries ⊆ job.plan.locals := by
    intro entry member
    refine List.mem_append_right _ (List.mem_flatMap.2 ?_)
    cases found : job.plan.blocks.get? id with
    | none =>
        rw [found] at member
        cases member
    | some introduced =>
        rw [found] at member
        exact ⟨_, SortedMap.get?_eq_some_iff.1 found, member⟩
  unfold block
  split
  · exact .reject
  · refine (Lower.Answers.check fun value found => found).bind fun opened =>
      (gives_continues_instrs fair).bind fun body => .pure ?_
    intro made continues opens planned
    rw [List.append_nil]
    have introduces := introduces_openBlock fair planned locals opens
    obtain ⟨isPlanned, loop, promises⟩ := continues introduces.planned
    rw [introduces.loop] at promises loop
    refine ⟨isPlanned, loop, promises.imp fun signatures _ runs => ?_⟩
    have carries := introduces.carries signatures
    refine ⟨carries.append runs.carries, fun names shown test member => ?_⟩
    rw [Script.opened_append]
    exact runs.condition _ (carries names shown).2 test member

end Job

end GotoFree
