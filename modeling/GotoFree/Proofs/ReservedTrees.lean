import GotoFree.Proofs.FunctionEnds
import GotoFree.Proofs.ReservedLocals
import GotoFree.Proofs.ReturnedValues

/-!
# Trees with reserved locals

If a local is reserved for an argument, the code of a whole tree binds the local to the argument
only. So do the functions of its loops, to which the local is passed on under its own name
(`Job.Entrusts.gives_confined_tree`).
-/

namespace GotoFree

open Target (Script Secrets Stmt)

namespace Job

variable {job : Job} {later : Agenda} {target : String} {source : Source} {secrets : Secrets}
  {scope : Scope} {coord : Coord} {value : Target.Expr} {steps : Script} {label : Label}
  {made more : List Target.Function}

/-- The functions of loops among some are of a kind. -/
def ForLoops (job : Job) (functions : List Target.Function) (kind : Target.Function → Prop) :
    Prop :=
  ∀ function ∈ functions, ∀ head, function.name = job.loopName head → kind function

/-- The function of the enclosing loop is in the secret. -/
def Shares (secrets : Secrets) (scope : Scope) : Prop :=
  ∀ frame, scope.loop = some frame → secrets.shares frame.name frame.params

section ForLoops

variable {kind : Target.Function → Prop}

theorem ForLoops.nil : job.ForLoops [] kind := nofun

/-- Functions of two parts are those of both. -/
theorem forLoops_append :
    job.ForLoops (made ++ more) kind ↔ job.ForLoops made kind ∧ job.ForLoops more kind :=
  List.forall_mem_append

/-- No dispatch function is named as that of a loop. -/
theorem Dispatches.forLoops (dispatches : job.Dispatches later made) : job.ForLoops made kind := by
  intro function member head named
  obtain ⟨number, site, instr, width, arms, type, -, -, rfl⟩ := dispatches function member
  exact absurd named.symm Origin.loopName_ne_dispatchName

end ForLoops

/-- The functions of loops among some are in the secret. -/
abbrev SharesAll (job : Job) (secrets : Secrets) (functions : List Target.Function) : Prop :=
  job.ForLoops functions fun function => secrets.shares function.name function.params

/-- The functions of loops among some keep secrets. -/
abbrev ConfinesAll (job : Job) (secrets : Secrets) (functions : List Target.Function) : Prop :=
  job.ForLoops functions fun function => Stmt.AllConfined secrets function.body

/-- Steps that lead from a scope to another one keep secrets. -/
structure Confines (job : Job) (secrets : Secrets) (scope after : Scope) (steps : Script) :
    Prop where
  planned : job.Planned after
  loop : after.loop = scope.loop
  steps : Script.Confined secrets steps

/-- What is relied on where code is lowered in a scope: the functions of the enclosing loop and of
the loops in the code are in the secret. -/
structure Trusts (job : Job) (secrets : Secrets) (scope : Scope) (made : List Target.Function) :
    Prop where
  planned : job.Planned scope
  enclosing : Shares secrets scope
  inner : job.SharesAll secrets made

section Confines

variable {middle after : Scope} {others : Script}

/-- A scope behind confined code shares what the scope before does. -/
theorem Confines.shares (confines : job.Confines secrets scope after steps)
    (shares : Shares secrets scope) : Shares secrets after := by
  unfold Shares
  rwa [confines.loop]

/-- Confined code without bindings stays in its scope. -/
theorem Confines.of_steps (planned : job.Planned scope) (confined : Script.Confined secrets steps) :
    job.Confines secrets scope scope steps :=
  ⟨planned, rfl, confined⟩

/-- Confined code in a row leads from scope to scope. -/
theorem Confines.append (first : job.Confines secrets scope middle steps)
    (second : job.Confines secrets middle after others) :
    job.Confines secrets scope after (steps ++ others) :=
  ⟨second.planned, second.loop.trans first.loop,
    Script.confined_append.2 ⟨first.steps, second.steps⟩⟩

namespace Trusts

variable (trusts : job.Trusts secrets scope (made ++ more))

include trusts

theorem before : job.Trusts secrets scope made :=
  ⟨trusts.planned, trusts.enclosing, (forLoops_append.1 trusts.inner).1⟩

theorem nested : job.Trusts secrets scope more :=
  ⟨trusts.planned, trusts.enclosing, (forLoops_append.1 trusts.inner).2⟩

theorem behind (confines : job.Confines secrets scope after steps) :
    job.Trusts secrets after more :=
  ⟨confines.planned, confines.shares trusts.enclosing, (forLoops_append.1 trusts.inner).2⟩

end Trusts

end Confines

/-! ## Leaving -/

/-- A return at the end of a function is confined. -/
theorem confined_emptyReturn : (job.emptyReturn scope).Confined secrets := by
  unfold emptyReturn
  split
  · split
    · exact confined_default
    · trivial
  · exact confined_default

/-- The body of a function is confined if its code is. -/
theorem confined_closed (confined : Script.Confined secrets steps) :
    Stmt.AllConfined secrets (job.closed scope steps) := by
  unfold closed
  split
  · exact Script.confined_stmts_iff.2 confined
  · exact Script.confined_stmts_iff.2 (Script.confined_append.2
      ⟨confined, Script.confined_ret.2 confined_emptyReturn⟩)

/-- Running a loop again is confined if its parameters are shared. -/
theorem confined_again {frame : LoopFrame} (shares : secrets.shares frame.name frame.params) :
    frame.again.Confined secrets :=
  .inl ⟨frame.params, shares, rfl⟩

variable (secrets) in

/-- A test on flags is confined. -/
theorem yields_confined_flagTest {flags : List Int} :
    Lower.Yields (flagTest flags) fun test => test.Confined secrets := by
  unfold flagTest
  split
  · next test isTest =>
    exact .pure (Target.Expr.confined_anyOf? Target.Expr.confined_contentOf isTest)
  · exact nofun

variable (secrets) in

/-- A gate is confined. -/
theorem yields_confined_gate {coords : CoordSet} :
    Lower.Yields (gate coords) fun test => test.Confined secrets :=
  Lower.Yields.skip fun _ => yields_confined_flagTest secrets

variable (secrets) in
theorem yields_confined_alternativeTest {head : BlockId} :
    Lower.Yields (job.alternativeTest label head) fun test => test.Confined secrets := by
  unfold alternativeTest
  split
  · split
    · exact Lower.Yields.skip fun _ => yields_confined_flagTest secrets
    · exact .reject
  · exact .reject

/-- A conditional return is confined if its value is. -/
theorem yields_confined_returnIf {coords : CoordSet} (confined : value.Confined secrets) :
    Lower.Yields (returnIf coords value) (Script.Confined secrets) := by
  unfold returnIf
  split
  · exact .pure Script.confined_nil
  · refine (yields_confined_gate secrets).bind fun test isTest => .pure ?_
    refine Script.confined_stmt.2 (Stmt.AllConfined.cond_iff.2 ⟨isTest, ?_, nofun⟩)
    exact List.forall_mem_singleton.2 confined

/-- Running the loop around again is confined if its parameters are shared. -/
theorem yields_confined_recurseAfter (shares : Shares secrets scope) :
    Lower.Yields (job.recurseAfter scope label) (Script.Confined secrets) := by
  unfold recurseAfter
  dsimp only
  split
  · exact .pure Script.confined_nil
  · split
    · next frame isFrame => exact yields_confined_returnIf (confined_again (shares frame isFrame))
    · exact .reject

namespace Entrusts

section Entrusted

variable (entrusts : job.Entrusts target source secrets)

include entrusts

/-- A jump is confined. -/
theorem yields_confined_jump (shares : Shares secrets scope) :
    Lower.Yields (job.jump scope coord) (Script.Confined secrets) := by
  unfold jump
  refine entrusts.yields_confined_record.bind fun recording quiet => ?_
  split
  · split
    · next frame isFrame =>
      exact .pure (Script.confined_append.2 ⟨quiet,
        Script.confined_ret.2 (confined_again (shares frame isFrame))⟩)
    · exact .reject
  · split
    · exact .pure (Script.confined_append.2 ⟨quiet, Script.confined_ret.2 confined_emptyReturn⟩)
    · exact .pure quiet

/-- The result of a loop is no secret. -/
theorem ignores_loopResult : Ignores secrets (loopResult label) :=
  entrusts.ignores_of_stem (by decide)

/-- Leaving a loop is confined. -/
theorem yields_confined_returnAfter :
    Lower.Yields (job.returnAfter scope label) (Script.Confined secrets) := by
  have result : (Target.Expr.var (loopResult label)).Confined secrets :=
    entrusts.ignores_loopResult.1
  exact (yields_confined_returnIf result).bind fun returning first =>
    (yields_confined_returnIf confined_emptyReturn).bind fun leaving second =>
      .pure (Script.confined_append.2 ⟨first, second⟩)

/-- Running a loop is confined if its parameters are shared. -/
theorem confined_runLoop {frame : LoopFrame} (shares : secrets.shares frame.name frame.params) :
    Script.Confined secrets (runLoop frame label) := by
  unfold runLoop
  split
  · exact confined_bindName (confined_again shares) entrusts.ignores_loopResult
  · exact Script.confined_stmt.2 (List.forall_mem_singleton.2 (confined_again shares))

/-! ## Blocks -/

/-- Instructions in a row are confined. -/
theorem yields_confined_instrs (planned : job.Planned scope) {id : BlockId} {index : Nat}
    {list : List Instr} (among : list ⊆ job.method.instrs) :
    Lower.Yields (job.instrs id index scope list) fun body =>
      job.Confines secrets scope body.scope body.steps ∧
        ∀ condition, body.condition = some condition → condition.Confined secrets := by
  induction list generalizing index scope with
  | nil => exact .pure ⟨⟨planned, rfl, Script.confined_nil⟩, nofun⟩
  | cons first rest ih =>
      obtain ⟨here, others⟩ := List.cons_subset.1 among
      refine Lower.Yields.skip fun _ => ?_
      refine Lower.Yields.bind (fun _ _ _ made =>
        And.intro (yields_planned_instr planned _ _ _ made)
          (And.intro (yields_returned_instr _ _ _ made).1
            (entrusts.yields_confined_instr planned here _ _ _ made)))
        fun head ⟨plannedAfter, loop, steps, conditions⟩ => ?_
      refine (ih plannedAfter others).bind fun tail ⟨confines, last⟩ => .pure ⟨?_, ?_⟩
      · exact ⟨confines.planned, confines.loop.trans loop,
          Script.confined_append.2 ⟨steps, confines.steps⟩⟩
      · intro condition isCondition
        cases found : tail.condition with
        | none =>
            rw [found] at isCondition
            exact conditions condition isCondition
        | some own =>
            rw [found] at isCondition
            exact last condition (found.trans isCondition)

/-- A block is confined. -/
theorem yields_confined_block (planned : job.Planned scope) {id : BlockId} :
    Lower.Yields (job.block scope id) fun body =>
      job.Confines secrets scope body.scope body.steps ∧
        ∀ condition, body.condition = some condition → condition.Confined secrets := by
  unfold block
  split
  · exact .reject
  · next block isBlock =>
    refine Lower.Yields.check.bind fun opened opens => ?_
    have locals : ∀ entry ∈ ((job.plan.blocks.get? id).getD .empty).entries,
        entry ∈ job.plan.locals := fun entry => BindingPlan.mem_locals_of_block
    have among : block.instrs ⊆ job.method.instrs := fun instr member =>
      List.mem_flatMap.2 ⟨block, List.mem_of_find?_eq_some isBlock, member⟩
    have opening := entrusts.confined_openBlock locals
      (entrusts.reserves.introduced id block isBlock) opens
    refine (entrusts.yields_confined_instrs (planned.opened locals opens) among).bind
      fun body ⟨confines, conditions⟩ => .pure ⟨?_, conditions⟩
    exact ⟨confines.planned, confines.loop.trans (calls_openBlock opens).1,
      Script.confined_append.2 ⟨opening, confines.steps⟩⟩

/-- A block makes functions that dispatch only. -/
theorem gives_confined_block {id : BlockId} :
    Lower.Gives (·.Within job.setting.program later none) (job.block scope id)
      fun body made => job.Trusts secrets scope made → job.ConfinesAll secrets made ∧
        job.Confines secrets scope body.scope body.steps ∧
          ∀ condition, body.condition = some condition → condition.Confined secrets := by
  have dispatches : Lower.Gives (·.Within job.setting.program later none) (job.block scope id)
      fun _ made => job.Dispatches later made := by
    unfold block
    split
    · exact .reject
    · refine Quiet.check.skip fun opened => gives_binds_instrs.bind fun body => .pure ?_
      rintro made ⟨dispatches, -⟩
      rwa [List.append_nil]
  refine (dispatches.also fun _ _ _ made planned =>
    entrusts.yields_confined_block planned _ _ _ made).imp fun body made found trusts => ?_
  exact ⟨found.1.forLoops, found.2 trusts.planned⟩

end Entrusted

/-! ## Trees -/

mutual

/-- The code of a tree keeps secrets, and so do the functions of its loops. -/
theorem gives_confined_tree (entrusts : job.Entrusts target source secrets) {scope : Scope}
    {tree : Tree} :
    Lower.Gives (·.Within job.setting.program later none) (job.tree scope tree)
      fun answer made => job.Trusts secrets scope made →
        job.ConfinesAll secrets made ∧ job.Confines secrets scope answer.2 answer.1 := by
  cases tree with
  | jump label coord =>
      rw [Job.tree]
      refine entrusts.gives_confined_block.bind fun body => ?_
      split
      · refine .pure fun made found trusts => ?_
        rw [List.append_nil] at trusts ⊢
        exact ⟨(found trusts).1, (found trusts).2.1⟩
      · refine Lower.Answers.bind (quiet_jump.under fun shares =>
          entrusts.yields_confined_jump shares) fun leaving => .pure ?_
        intro jumps made found trusts
        rw [List.append_nil] at trusts ⊢
        obtain ⟨functions, confines, -⟩ := found trusts
        exact ⟨functions, confines.planned, confines.loop,
          Script.confined_append.2 ⟨confines.steps, jumps (confines.shares trusts.enclosing)⟩⟩
  | conditional label taken notTaken =>
      rw [Job.tree]
      refine entrusts.gives_confined_block.bind fun body => ?_
      split
      · exact .reject
      · next condition isCondition =>
        refine entrusts.gives_confined_arm.bind fun thenBranch =>
          entrusts.gives_confined_arm.bind fun elseBranch => .pure ?_
        rintro other ofElse taken ofThen own ofBlock trusts
        rw [List.append_nil] at trusts ⊢
        obtain ⟨functions, confines, conditions⟩ := ofBlock trusts.before
        have trustsInside := trusts.behind confines
        obtain ⟨thenFunctions, thenConfined⟩ := ofThen trustsInside.before
        obtain ⟨elseFunctions, elseConfined⟩ := ofElse trustsInside.nested
        refine ⟨forLoops_append.2 ⟨functions, forLoops_append.2 ⟨thenFunctions, elseFunctions⟩⟩,
          confines.append (.of_steps trustsInside.planned (Script.confined_stmt.2 ?_))⟩
        exact Stmt.AllConfined.cond_iff.2
          ⟨conditions condition isCondition, thenConfined, elseConfined⟩
  | sequence label elems =>
      rw [Job.tree]
      exact entrusts.gives_confined_elems
  | loop label entries body =>
      rw [Job.tree]
      refine entrusts.gives_confined_tree.bind fun inner => Lower.gives_addHelper.bind fun _ => ?_
      refine Lower.Answers.bind (quiet_recurseAfter.under fun shares : Shares secrets scope =>
        yields_confined_recurseAfter shares) fun recurse => ?_
      refine Lower.Answers.bind (quiet_returnAfter.yields entrusts.yields_confined_returnAfter)
        fun leave => .pure ?_
      rintro leaves recurses _ rfl made ofBody trusts
      rw [List.append_nil] at trusts ⊢
      have own : secrets.shares (job.loopFrame scope label).name
          (job.loopFrame scope label).params :=
        (forLoops_append.1 trusts.inner).2 _ (List.mem_singleton_self _) label.head rfl
      have enclosing : Shares secrets (scope.insideLoop (job.loopFrame scope label)) := by
        rintro frame ⟨⟩
        exact own
      obtain ⟨functions, confines⟩ := ofBody
        ⟨trusts.planned.insideLoop (List.Subset.refl _), enclosing, trusts.before.inner⟩
      refine ⟨forLoops_append.2 ⟨functions, List.forall_mem_singleton.2 fun _ _ =>
        confined_closed confines.steps⟩, .of_steps trusts.planned ?_⟩
      exact Script.confined_append.2 ⟨Script.confined_append.2
        ⟨entrusts.confined_runLoop own, recurses trusts.enclosing⟩, leaves⟩
  | merge label alternatives incoming =>
      rw [Job.tree]
      refine entrusts.gives_confined_alternatives.bind fun stmts => .pure ?_
      intro made found trusts
      rw [List.append_nil] at trusts ⊢
      obtain ⟨functions, confined⟩ := found trusts
      exact ⟨functions, .of_steps trusts.planned (Script.confined_ofStmts.2 confined)⟩

/-- The code of an arm keeps secrets. -/
theorem gives_confined_arm (entrusts : job.Entrusts target source secrets) {scope : Scope}
    {arm : Arm} :
    Lower.Gives (·.Within job.setting.program later none) (job.arm scope arm)
      fun stmts made => job.Trusts secrets scope made →
        job.ConfinesAll secrets made ∧ Stmt.AllConfined secrets stmts := by
  cases arm with
  | jump coord jumps =>
      rw [Job.arm]
      refine Lower.Answers.bind (quiet_jump.under fun shares =>
        entrusts.yields_confined_jump shares) fun leaving => .pure fun confined trusts => ?_
      exact ⟨.nil, Script.confined_stmts_iff.2 (confined trusts.enclosing)⟩
  | nested tree =>
      rw [Job.arm]
      refine entrusts.gives_confined_tree.bind fun code => .pure fun made found trusts => ?_
      rw [List.append_nil] at trusts ⊢
      obtain ⟨functions, confines⟩ := found trusts
      exact ⟨functions, Script.confined_stmts_iff.2 confines.steps⟩

/-- The code of the elements of a sequence keeps secrets. -/
theorem gives_confined_elems (entrusts : job.Entrusts target source secrets) {scope : Scope}
    {elems : List Tree} :
    Lower.Gives (·.Within job.setting.program later none) (job.elems scope elems)
      fun answer made => job.Trusts secrets scope made →
        job.ConfinesAll secrets made ∧ job.Confines secrets scope answer.2 answer.1 := by
  cases elems with
  | nil => exact .pure fun trusts => ⟨.nil, Confines.of_steps trusts.planned Script.confined_nil⟩
  | cons tree rest =>
      rw [Job.elems]
      split
      · refine Lower.Answers.bind (quiet_gate.yields (yields_confined_gate secrets)) fun test =>
          entrusts.gives_confined_tree.bind fun code =>
            entrusts.gives_confined_elems.bind fun others => .pure ?_
        rintro more behind made own isTest trusts
        rw [List.append_nil] at trusts ⊢
        obtain ⟨functions, confines⟩ := own trusts.before
        obtain ⟨otherFunctions, confinesRest⟩ := behind trusts.nested
        refine ⟨forLoops_append.2 ⟨functions, otherFunctions⟩,
          (Confines.of_steps trusts.planned ?_).append confinesRest⟩
        split
        · exact Script.confined_nil
        · exact Script.confined_stmt.2 (Stmt.AllConfined.cond_iff.2
            ⟨isTest, Script.confined_stmts_iff.2 confines.steps, nofun⟩)
      · refine entrusts.gives_confined_tree.bind fun code =>
          entrusts.gives_confined_elems.bind fun others => .pure ?_
        rintro more behind made own trusts
        rw [List.append_nil] at trusts ⊢
        obtain ⟨functions, confines⟩ := own trusts.before
        obtain ⟨otherFunctions, confinesRest⟩ := behind (trusts.behind confines)
        exact ⟨forLoops_append.2 ⟨functions, otherFunctions⟩, confines.append confinesRest⟩

/-- The code of the alternatives of a merge keeps secrets. -/
theorem gives_confined_alternatives (entrusts : job.Entrusts target source secrets)
    {scope : Scope} {merge : Label} {alternatives : List Tree} :
    Lower.Gives (·.Within job.setting.program later none)
      (job.alternatives scope merge alternatives) fun stmts made => job.Trusts secrets scope made →
        job.ConfinesAll secrets made ∧ Stmt.AllConfined secrets stmts := by
  cases alternatives with
  | nil =>
      refine .pure fun _ => ⟨.nil, ?_⟩
      exact List.forall_mem_singleton.2 trivial
  | cons tree rest =>
      rw [Job.alternatives]
      refine Lower.Answers.bind (quiet_alternativeTest.yields
        (yields_confined_alternativeTest secrets)) fun test =>
          entrusts.gives_confined_tree.bind fun code =>
            entrusts.gives_confined_alternatives.bind fun others => .pure ?_
      rintro more behind made own isTest trusts
      rw [List.append_nil] at trusts ⊢
      obtain ⟨functions, confines⟩ := own trusts.before
      obtain ⟨otherFunctions, confined⟩ := behind trusts.nested
      exact ⟨forLoops_append.2 ⟨functions, otherFunctions⟩, Stmt.AllConfined.cond_iff.2
        ⟨isTest, Script.confined_stmts_iff.2 confines.steps, confined⟩⟩

end

end Entrusts

end Job

end GotoFree
