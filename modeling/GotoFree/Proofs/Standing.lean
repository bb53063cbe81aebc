import GotoFree.Proofs.Reached
import GotoFree.Proofs.ScopedTrees

/-!
# Where the code of an instruction stands

What an instruction is lowered to is a run of steps. Every instruction that control may come to has
its steps in some function: at a point of its body they are what comes next, and the conditional on
what a branch decides comes right behind those of the branch (`Job.Stands`). This is an induction
over the tree (`Job.gives_houses_tree`), and holds for all methods that are reached
(`Lower.stands_program`). So what is said about the steps of one instruction can be said about a
program.
-/

namespace GotoFree

open LoopForest
open Target (Script Stmt)

/-! ## What is left of a block -/

namespace Target

/-- At some point of a block these statements are what is left of it, or of a block in it. -/
inductive Stmt.IsRest (rest : List Stmt) : List Stmt → Prop
  | whole : IsRest rest rest
  | behind {stmt : Stmt} {block : List Stmt} (later : IsRest rest block) :
      IsRest rest (stmt :: block)
  | bound {pattern : Pattern} {value : Expr} {body block : List Stmt} (inside : IsRest rest body) :
      IsRest rest (.bind pattern value body :: block)
  | taken {condition : Expr} {thenBranch elseBranch block : List Stmt}
      (inside : IsRest rest thenBranch) :
      IsRest rest (.cond condition thenBranch elseBranch :: block)
  | notTaken {condition : Expr} {thenBranch elseBranch block : List Stmt}
      (inside : IsRest rest elseBranch) :
      IsRest rest (.cond condition thenBranch elseBranch :: block)

theorem Stmt.IsRest.trans {rest inner block : List Stmt} (first : IsRest rest inner)
    (second : IsRest inner block) : IsRest rest block := by
  induction second with
  | whole => exact first
  | behind _ ih => exact .behind ih
  | bound _ ih => exact .bound ih
  | taken _ ih => exact .taken ih
  | notTaken _ ih => exact .notTaken ih

theorem Stmt.IsRest.nil {block : List Stmt} : IsRest [] block := by
  induction block with
  | nil => exact .whole
  | cons stmt rest ih => exact .behind ih

theorem Script.isRest_append {front back : Script} :
    Stmt.IsRest back.stmts (front ++ back).stmts := by
  induction front with
  | nil => exact .whole
  | cons step rest ih =>
      cases step with
      | stmt stmt => exact .behind ih
      | bind pattern value => exact .bound ih

theorem Script.stmts_ofStmts_append {stmts : List Stmt} {back : Script} :
    (ofStmts stmts ++ back).stmts = stmts ++ back.stmts := by
  induction stmts with
  | nil => rfl
  | cons first rest ih => exact congrArg (List.cons first) ih

end Target

open Target.Stmt (IsRest)

/-- A step has been run on the way, where what it gives is known. -/
theorem Lower.Gives.ran {α : Type} {fine : Progress → Prop} {step : Lower α}
    {post : α → List Target.Function → Prop} (gives : Gives fine step post) :
    Gives fine step fun answer made => ∃ progress after,
      step progress = .ok (answer, after) ∧ fine after ∧
        after.helpers = progress.helpers ++ made := by
  intro progress answer after ran isFine
  obtain ⟨wasFine, made, helpers, -⟩ := gives progress answer after ran isFine
  exact ⟨wasFine, made, helpers, progress, after, ran, isFine, helpers⟩

namespace Job

variable {job : Job} {graph : BlockGraph} {scope after : Scope} {source : Instr} {later : Agenda}
  {number : Nat} {spot : Spot} {id : BlockId} {code body : Lowered}
  {made more : List Target.Function}

/-! ## Scopes -/

theorem Planned.stored {name : String} {value : Target.Expr} {answer : Script × Scope}
    (planned : job.Planned scope) (made : job.store scope name value = .ok answer) :
    job.Planned answer.2 := by
  unfold Job.store at made
  split at made
  · cases made
    exact planned
  · cases made
  · next binding _ isPostponed =>
    cases made
    exact planned.bind (planned.postponed name binding isPostponed)
  · cases made

theorem Planned.opened {defined : List String} {list : List (String × Binding)}
    {answer : Script × Scope} (planned : job.Planned scope)
    (introduced : ∀ entry ∈ list, entry ∈ job.plan.locals)
    (opens : job.openBlock id defined scope list = .ok answer) : job.Planned answer.2 := by
  induction list generalizing scope answer with
  | nil =>
      cases opens
      exact planned
  | cons first rest ih =>
      obtain ⟨name, binding⟩ := first
      obtain ⟨own, others⟩ := List.forall_mem_cons.1 introduced
      unfold openBlock at opens
      split at opens
      · exact ih (planned.postpone own) others opens
      · dsimp only at opens
        split at opens
        · obtain ⟨type, -, opens⟩ := bind_eq_ok_iff.1 opens
          obtain ⟨inner, makes, opens⟩ := bind_eq_ok_iff.1 opens
          cases opens
          have isPlanned := ih (planned.bind own) others makes
          exact isPlanned
        · cases opens

theorem Planned.introduced {list : List (String × Binding)} {answer : Script × Scope}
    (planned : job.Planned scope) (introduced : ∀ entry ∈ list, entry ∈ job.plan.locals)
    (introduces : job.introduceEntry scope list = .ok answer) : job.Planned answer.2 := by
  induction list generalizing scope answer with
  | nil =>
      cases introduces
      exact planned
  | cons first rest ih =>
      obtain ⟨name, binding⟩ := first
      obtain ⟨own, others⟩ := List.forall_mem_cons.1 introduced
      unfold introduceEntry at introduces
      split at introduces
      · obtain ⟨inner, makes, introduces⟩ := bind_eq_ok_iff.1 introduces
        cases introduces
        have isPlanned := ih (planned.bind own) others makes
        exact isPlanned
      · obtain ⟨type, -, introduces⟩ := bind_eq_ok_iff.1 introduces
        obtain ⟨inner, makes, introduces⟩ := bind_eq_ok_iff.1 introduces
        cases introduces
        have isPlanned := ih (planned.bind own) others makes
        exact isPlanned
      · exact ih (planned.postpone own) others introduces

/-- The locals of a scope are planned ones behind an assignment, too. -/
theorem yields_planned_assign {value : Target.Expr} {place : Place} (planned : job.Planned scope) :
    Lower.Yields (job.assign scope source value place) fun answer => job.Planned answer.2.1 := by
  cases place with
  | var name =>
      exact Lower.Yields.check.bind fun answer stored => .pure (planned.stored stored)
  | field => exact Lower.Yields.skip fun answer => .pure planned
  | arrayElement =>
      exact Lower.Yields.skip fun array => Lower.Yields.skip fun position => .pure planned

/-- The locals of a scope are planned ones behind a plain instruction, too. -/
theorem yields_planned_plainInstr (planned : job.Planned scope) :
    Lower.Yields (job.plainInstr scope source) fun answer => job.Planned answer.2 := by
  cases source with
  | assign target value =>
      exact Lower.Yields.skip fun computed =>
        (yields_planned_assign planned).bind fun answer isPlanned => .pure isPlanned
  | call site =>
      refine Lower.Yields.skip fun answer => ?_
      split
      · exact .pure planned
      · exact .pure planned
  | nop unreachable => cases unreachable <;> exact .pure planned
  | aliased => exact Lower.Yields.skip fun left => Lower.Yields.skip fun right => .pure planned
  | throw | identity | branch | goto | ret => exact .reject

/-- The locals of a scope are planned ones behind an instruction, too. -/
theorem yields_planned_instr (planned : job.Planned scope) :
    Lower.Yields (job.instr id scope source) fun code => job.Planned code.scope := by
  cases source with
  | branch => exact Lower.Yields.skip fun computed => .pure planned
  | goto => exact .pure planned
  | ret => exact Lower.Yields.skip fun steps => .pure planned
  | identity target from_ =>
      unfold instr
      dsimp only
      split
      · exact .pure planned
      · exact Lower.Yields.skip fun param =>
          Lower.Yields.check.bind fun answer stored => .pure (planned.stored stored)
  | assign | call | nop | throw | aliased =>
      exact (yields_planned_plainInstr planned).bind fun answer isPlanned => .pure isPlanned

/-! ## Instructions -/

/-- The instruction at a spot was lowered in a scope, on the way to a later agenda: it became some
code, and some functions were made for it. -/
structure Lowers (job : Job) (later : Agenda) (spot : Spot) (scope : Scope) (source : Instr)
    (code : Lowered) (made : List Target.Function) : Prop where
  planned : job.Planned scope
  ran : ∃ progress after, job.instr spot.block scope source progress = .ok (code, after) ∧
    after.Within job.setting.program later (some (later.spots.order.idxOf spot)) ∧
      after.helpers = progress.helpers ++ made

/-- What lowering an instruction gives is so for the code that it became. -/
theorem Lowers.of_gives {post : Lowered → List Target.Function → Prop}
    (lowers : job.Lowers later spot scope source code made)
    (gives : Lower.Gives
      (·.Within job.setting.program later (some (later.spots.order.idxOf spot)))
      (job.instr spot.block scope source) post) : post code made := by
  obtain ⟨progress, after, ran, within, helpers⟩ := lowers.ran
  obtain ⟨-, others, same, found⟩ := gives progress code after ran within
  rwa [List.append_cancel_left (helpers.symm.trans same)]

/-- The locals of a scope are planned ones behind what was lowered. -/
theorem Lowers.planned_after (lowers : job.Lowers later spot scope source code made) :
    job.Planned code.scope := by
  obtain ⟨progress, after, ran, -⟩ := lowers.ran
  exact yields_planned_instr lowers.planned progress code after ran

/-- Only a branch has a condition. -/
theorem yields_condition_instr :
    Lower.Yields (job.instr id scope source) fun code =>
      ∀ condition, code.condition = some condition → source.isBranch = true := by
  cases source with
  | branch => exact Lower.Yields.skip fun computed => .pure fun _ _ => rfl
  | goto => exact .pure nofun
  | ret => exact Lower.Yields.skip fun steps => .pure nofun
  | identity target from_ =>
      unfold instr
      dsimp only
      split
      · exact .pure nofun
      · exact Lower.Yields.skip fun param => Lower.Yields.skip fun answer => .pure nofun
  | assign | call | nop | throw | aliased => exact Lower.Yields.skip fun answer => .pure nofun

/-- Only a branch has a condition. -/
theorem Lowers.isBranch {condition : Target.Expr}
    (lowers : job.Lowers later spot scope source code made)
    (isCondition : code.condition = some condition) : source.isBranch = true := by
  obtain ⟨progress, after, ran, -⟩ := lowers.ran
  exact yields_condition_instr progress code after ran condition isCondition

/-- A run of instructions has become some code: each instruction is a run of its steps, that of the
last one at the end, with its condition. -/
def Holds (job : Job) (later : Agenda) (spotAt : Nat → Spot) (list : List Instr) (body : Lowered)
    (made : List Target.Function) : Prop :=
  ∀ index source, list[index]? = some source → ∃ scope code own front back,
    job.Lowers later (spotAt index) scope source code own ∧ own ⊆ made ∧
      body.steps = front ++ code.steps ++ back ∧
      (index + 1 = list.length →
        back = [] ∧ ∀ condition, code.condition = some condition → body.condition = some condition)

/-- Each instruction of a block is lowered, and its code stands in that of the block. -/
theorem gives_holds_instrs {index : Nat} {scope : Scope} {list : List Instr} :
    Lower.Gives (·.Within job.setting.program later none) (job.instrs id index scope list)
      fun body made => job.Planned scope → job.Planned body.scope ∧
        job.Holds later (fun n => ⟨job.id, id, index + n⟩) list body made ∧
        (list = [] → body.steps = [] ∧ body.condition = none) := by
  induction list generalizing index scope with
  | nil =>
      refine .pure fun planned => ⟨planned, fun n source isSource => ?_, fun _ => ⟨rfl, rfl⟩⟩
      cases List.getElem?_nil.symm.trans isSource
  | cons first rest ih =>
      refine Lower.gives_enter_bind (fun number => Lower.Gives.ran gives_instr_atMost) fun head =>
        ih.bind fun tail => .pure ?_
      intro more follows own _ ran planned
      rw [List.append_nil]
      have lowers : job.Lowers later ⟨job.id, id, index⟩ scope first head own := ⟨planned, ran⟩
      obtain ⟨plannedAfter, holds, atEnd⟩ := follows lowers.planned_after
      refine ⟨plannedAfter, fun n source isSource => ?_, nofun⟩
      cases n with
      | zero =>
          cases isSource
          refine ⟨scope, head, own, [], tail.steps, lowers, List.subset_append_left _ _, rfl,
            fun isLast => ?_⟩
          obtain ⟨none, unconditional⟩ := atEnd (List.length_eq_zero_iff.1 (by simpa using isLast))
          refine ⟨none, fun condition isCondition => ?_⟩
          rw [unconditional, isCondition]
          rfl
      | succ n =>
          obtain ⟨inner, code, made, front, back, isCode, among, same, isLast⟩ :=
            holds n source isSource
          refine ⟨inner, code, made, head.steps ++ front, back, ?_,
            List.Subset.trans among (List.subset_append_right _ _), ?_, fun last => ?_⟩
          · dsimp only at isCode ⊢
            rwa [Nat.add_right_comm] at isCode
          · simp [same]
          · obtain ⟨none, conditions⟩ := isLast (by simpa using last)
            refine ⟨none, fun condition isCondition => ?_⟩
            rw [conditions condition isCondition]
            rfl

/-! ## Blocks -/

/-- What is lowered for a block holds its instructions. -/
def HoldsBlock (job : Job) (later : Agenda) (id : BlockId) (body : Lowered)
    (made : List Target.Function) : Prop :=
  ∀ block, job.method.block? id = some block →
    job.Holds later (fun index => ⟨job.id, id, index⟩) block.instrs body made

/-- Each instruction of a block stands in the code of the block. -/
theorem gives_holds_block :
    Lower.Gives (·.Within job.setting.program later none) (job.block scope id)
      fun body made => job.Planned scope →
        job.Planned body.scope ∧ job.HoldsBlock later id body made := by
  unfold block
  split
  · exact .reject
  · next block found =>
    refine .check_bind fun opened opens => gives_holds_instrs.bind fun body => .pure ?_
    intro made follows planned
    rw [List.append_nil]
    obtain ⟨plannedAfter, holds, -⟩ :=
      follows (planned.opened (fun _ => BindingPlan.mem_locals_of_block) opens)
    refine ⟨plannedAfter, fun _ isBlock => ?_⟩
    cases found.symm.trans isBlock
    intro index source isSource
    obtain ⟨inner, code, own, front, back, lowers, among, same, isLast⟩ :=
      holds index source isSource
    refine ⟨inner, code, own, opened.1 ++ front, back, ?_, among, by simp [same], isLast⟩
    simpa using lowers

/-! ## Trees -/

/-- At some point of some statements the steps of a block come next, and behind those of a branching
block the conditional on its condition. -/
def StandsIn (graph : BlockGraph) (id : BlockId) (body : Lowered) (stmts : List Stmt) : Prop :=
  ∃ back, IsRest (body.steps ++ back).stmts stmts ∧
    (graph.isBranching id = true → ∃ condition thenBranch elseBranch rest,
      body.condition = some condition ∧
        back = .stmt (.cond condition thenBranch elseBranch) :: rest)

/-- What stands in a block stands in what that block ends. -/
theorem StandsIn.trans {stmts block : List Stmt} (stands : StandsIn graph id body stmts)
    (rest : IsRest stmts block) : StandsIn graph id body block := by
  obtain ⟨back, isRest, branches⟩ := stands
  exact ⟨back, isRest.trans rest, branches⟩

/-- A body that returns at its end has all that its steps have. -/
theorem StandsIn.closed {steps : Script}
    (stands : ∀ more, StandsIn graph id body (steps ++ more).stmts) :
    StandsIn graph id body (job.closed scope steps) := by
  unfold Job.closed
  split
  · simpa using stands []
  · exact stands _

/-- Some blocks were lowered, each of them into some code or into a function that was made. -/
def Houses (job : Job) (graph : BlockGraph) (later : Agenda) (ids : List BlockId)
    (here : BlockId → Lowered → Prop) (made : List Target.Function) : Prop :=
  ∀ id ∈ ids, ∃ body own, job.HoldsBlock later id body own ∧ own ⊆ made ∧
    (here id body ∨ ∃ function ∈ made, StandsIn graph id body function.body)

/-- Some blocks stand in a script, whatever comes behind it. -/
abbrev HousesIn (job : Job) (graph : BlockGraph) (later : Agenda) (ids : List BlockId)
    (steps : Script) (made : List Target.Function) : Prop :=
  job.Houses graph later ids (fun id body => ∀ more, StandsIn graph id body (steps ++ more).stmts)
    made

section Houses

variable {ids others : List BlockId} {here there : BlockId → Lowered → Prop} {steps : Script}

/-- Blocks may stand in another place. -/
theorem Houses.imp (houses : job.Houses graph later ids here made)
    (weaken : ∀ id body, here id body → there id body) :
    job.Houses graph later ids there made := by
  intro id member
  obtain ⟨body, own, holds, among, place⟩ := houses id member
  exact ⟨body, own, holds, among, place.imp_left (weaken id body)⟩

/-- The blocks of two parts stand in one place or in the functions of both. -/
theorem Houses.append (first : job.Houses graph later ids here made)
    (second : job.Houses graph later others here more) :
    job.Houses graph later (ids ++ others) here (made ++ more) := by
  have left : made ⊆ made ++ more := List.subset_append_left _ _
  have right : more ⊆ made ++ more := List.subset_append_right _ _
  intro id member
  rcases List.mem_append.1 member with member | member
  · obtain ⟨body, own, holds, among, place⟩ := first id member
    exact ⟨body, own, holds, List.Subset.trans among left,
      place.imp_right fun ⟨function, isMade, stands⟩ => ⟨function, left isMade, stands⟩⟩
  · obtain ⟨body, own, holds, among, place⟩ := second id member
    exact ⟨body, own, holds, List.Subset.trans among right,
      place.imp_right fun ⟨function, isMade, stands⟩ => ⟨function, right isMade, stands⟩⟩

/-- Blocks that stand in the body of a function stand in a function that is made. -/
theorem Houses.snoc {function : Target.Function}
    (houses : job.Houses graph later ids here made)
    (inside : ∀ id body, here id body → StandsIn graph id body function.body) :
    job.Houses graph later ids there (made ++ [function]) := by
  have left : made ⊆ made ++ [function] := List.subset_append_left _ _
  intro id member
  obtain ⟨body, own, holds, among, place⟩ := houses id member
  refine ⟨body, own, holds, List.Subset.trans among left, .inr ?_⟩
  obtain stands | ⟨other, isMade, stands⟩ := place
  · exact ⟨function, by simp, inside id body stands⟩
  · exact ⟨other, left isMade, stands⟩

/-- Blocks in a script stand in its statements. -/
theorem HousesIn.stmts {steps : Script} (houses : job.HousesIn graph later ids steps made) :
    job.Houses graph later ids (fun id body => StandsIn graph id body steps.stmts) made :=
  houses.imp fun id body stands => by simpa using stands []

theorem HousesIn.before {steps : Script} (houses : job.HousesIn graph later ids steps made)
    (back : Script) : job.HousesIn graph later ids (steps ++ back) made := by
  refine houses.imp fun id body stands more => ?_
  rw [List.append_assoc]
  exact stands (back ++ more)

theorem HousesIn.behind {steps : Script} (houses : job.HousesIn graph later ids steps made)
    (front : Script) : job.HousesIn graph later ids (front ++ steps) made := by
  refine houses.imp fun id body stands more => ?_
  rw [List.append_assoc]
  exact (stands more).trans Script.isRest_append

end Houses

/-- A block that does not branch. -/
theorem gives_houses_jump {label : Label} {coord : Coord}
    (straight : graph.isBranching label.head = false) :
    Lower.Gives (·.Within job.setting.program later none) (job.tree scope (.jump label coord))
      fun answer made => job.Planned scope → job.Planned answer.2 ∧
        job.HousesIn graph later [label.head] answer.1 made := by
  have houses {body : Lowered} {own : List Target.Function}
      (holds : job.HoldsBlock later label.head body own) (leaving : Script) :
      job.HousesIn graph later [label.head] (body.steps ++ leaving) own := by
    intro id member
    rw [List.mem_singleton.1 member]
    refine ⟨body, own, holds, List.Subset.refl _, .inl fun more => ⟨leaving ++ more, ?_, ?_⟩⟩
    · rw [List.append_assoc]
      exact .whole
    · rw [straight]
      intro branches
      cases branches
  rw [Job.tree]
  refine gives_holds_block.bind fun body => ?_
  split
  · refine .pure fun made follows planned => ?_
    obtain ⟨isPlanned, holds⟩ := follows planned
    rw [List.append_nil]
    exact ⟨isPlanned, by simpa using houses holds []⟩
  · refine quiet_jump.skip fun leaving => .pure fun made follows planned => ?_
    obtain ⟨isPlanned, holds⟩ := follows planned
    rw [List.append_nil]
    exact ⟨isPlanned, houses holds leaving⟩

/-- The blocks of an arm stand in its statements. -/
theorem gives_houses_arm {arm : Arm}
    (nested : ∀ tree, arm = .nested tree →
      Lower.Gives (·.Within job.setting.program later none) (job.tree scope tree)
        fun answer made => job.Planned scope → job.Planned answer.2 ∧
          job.HousesIn graph later tree.blocks answer.1 made) :
    Lower.Gives (·.Within job.setting.program later none) (job.arm scope arm)
      fun stmts made => job.Planned scope →
        job.Houses graph later (Tree.blocksOfArm arm)
          (fun id body => StandsIn graph id body stmts) made := by
  cases arm with
  | jump coord jumps =>
      rw [Job.arm]
      exact quiet_jump.skip fun leaving => .pure fun planned => nofun
  | nested tree =>
      rw [Job.arm]
      refine (nested tree rfl).bind fun answer => .pure fun made follows planned => ?_
      rw [List.append_nil]
      exact (follows planned).2.stmts

/-- A branching block, with what its arms hold. -/
theorem gives_houses_conditional {label : Label} {taken notTaken : Arm}
    (takenGives : ∀ scope, Lower.Gives (·.Within job.setting.program later none)
      (job.arm scope taken) fun stmts made => job.Planned scope →
        job.Houses graph later (Tree.blocksOfArm taken)
          (fun id body => StandsIn graph id body stmts) made)
    (notTakenGives : ∀ scope, Lower.Gives (·.Within job.setting.program later none)
      (job.arm scope notTaken) fun stmts made => job.Planned scope →
        job.Houses graph later (Tree.blocksOfArm notTaken)
          (fun id body => StandsIn graph id body stmts) made) :
    Lower.Gives (·.Within job.setting.program later none)
      (job.tree scope (.conditional label taken notTaken))
      fun answer made => job.Planned scope → job.Planned answer.2 ∧
        job.HousesIn graph later (Tree.conditional label taken notTaken).blocks answer.1 made := by
  rw [Job.tree]
  refine gives_holds_block.bind fun body => ?_
  split
  · exact .reject
  · next condition isCondition =>
    refine (takenGives body.scope).bind fun thenBranch =>
      (notTakenGives body.scope).bind fun elseBranch => .pure ?_
    intro madeElse inElse madeThen inThen made follows planned
    obtain ⟨isPlanned, holds⟩ := follows planned
    rw [List.append_nil, Tree.blocks_conditional, ← List.singleton_append]
    have own : job.HousesIn graph later [label.head]
        (body.steps ++ [.stmt (.cond condition thenBranch elseBranch)]) made := by
      intro id member
      rw [List.mem_singleton.1 member]
      refine ⟨body, made, holds, List.Subset.refl _, .inl fun more => ⟨_, ?_, fun _ =>
        ⟨condition, thenBranch, elseBranch, more, isCondition, rfl⟩⟩⟩
      rw [List.append_assoc]
      exact .whole
    -- The arms are blocks of the conditional behind the steps.
    have branches {stmts : List Stmt} (isBranch : ∀ more, IsRest stmts
        (.cond condition thenBranch elseBranch :: more)) {id : BlockId} {inner : Lowered}
        (stands : StandsIn graph id inner stmts) (more : Script) :
        StandsIn graph id inner (body.steps ++
          [Target.Step.stmt (.cond condition thenBranch elseBranch)] ++ more).stmts := by
      rw [List.append_assoc]
      exact (stands.trans (isBranch more.stmts)).trans
        (@Script.isRest_append body.steps (.stmt (.cond condition thenBranch elseBranch) :: more))
    exact ⟨isPlanned, own.append (((inThen isPlanned).imp fun id inner stands =>
      branches (fun _ => .taken .whole) stands).append ((inElse isPlanned).imp
        fun id inner stands => branches (fun _ => .notTaken .whole) stands))⟩

/-- The blocks of the elements of a sequence stand in its code. -/
theorem gives_houses_elems {elems : List Tree}
    (trees : ∀ tree ∈ elems, ∀ scope,
      Lower.Gives (·.Within job.setting.program later none) (job.tree scope tree)
        fun answer made => job.Planned scope → job.Planned answer.2 ∧
          job.HousesIn graph later tree.blocks answer.1 made) :
    ∀ scope, Lower.Gives (·.Within job.setting.program later none) (job.elems scope elems)
      fun answer made => job.Planned scope → job.Planned answer.2 ∧
        job.HousesIn graph later (elems.flatMap Tree.blocks) answer.1 made := by
  induction elems with
  | nil => exact fun scope => .pure fun planned => ⟨planned, nofun⟩
  | cons tree rest ih =>
      have others := ih fun other member => trees other (List.mem_cons_of_mem _ member)
      intro scope
      unfold Job.elems
      split
      · refine quiet_gate.skip fun test => (trees tree (by simp) scope).bind fun answer =>
          (others scope).bind fun last => .pure ?_
        intro more follows made inside planned
        rw [List.append_nil, List.flatMap_cons]
        refine ⟨(follows planned).1, Houses.append ?_ ((follows planned).2.behind _)⟩
        refine (inside planned).2.stmts.imp fun id body stands behind => ?_
        split
        · next none =>
          rw [none] at stands
          exact stands.trans .nil
        · exact stands.trans (.taken .whole)
      · refine (trees tree (by simp) scope).bind fun answer =>
          (others answer.2).bind fun last => .pure ?_
        intro more follows made inside planned
        obtain ⟨isPlanned, houses⟩ := inside planned
        obtain ⟨plannedAfter, behind⟩ := follows isPlanned
        rw [List.append_nil, List.flatMap_cons]
        exact ⟨plannedAfter, (houses.before last.1).append (behind.behind answer.1)⟩

/-- The blocks of the alternatives of a merge stand in its statements. -/
theorem gives_houses_alternatives {merge : Label} {alternatives : List Tree}
    (trees : ∀ tree ∈ alternatives,
      Lower.Gives (·.Within job.setting.program later none) (job.tree scope tree)
        fun answer made => job.Planned scope → job.Planned answer.2 ∧
          job.HousesIn graph later tree.blocks answer.1 made) :
    Lower.Gives (·.Within job.setting.program later none)
      (job.alternatives scope merge alternatives)
      fun stmts made => job.Planned scope →
        job.Houses graph later (alternatives.flatMap Tree.blocks)
          (fun id body => ∀ more, StandsIn graph id body (stmts ++ more)) made := by
  induction alternatives with
  | nil => exact .pure fun planned => nofun
  | cons tree rest ih =>
      unfold alternatives
      refine quiet_alternativeTest.skip fun test => (trees tree (by simp)).bind fun answer =>
        (ih fun other member => trees other (List.mem_cons_of_mem _ member)).bind fun others =>
          .pure ?_
      intro more follows made inside planned
      rw [List.append_nil, List.flatMap_cons]
      refine ((inside planned).2.stmts.imp fun id body stands behind => ?_).append
        ((follows planned).imp fun id body stands behind => ?_)
      · exact stands.trans (.taken .whole)
      · exact StandsIn.trans (by simpa using stands []) (.notTaken .whole)

/-- What a loop holds stands in the function that is made for it. -/
theorem gives_houses_loop {label : Label} {entries : SortedSet BlockId} {body : Tree}
    (gives : ∀ scope, Lower.Gives (·.Within job.setting.program later none) (job.tree scope body)
      fun answer made => job.Planned scope → job.Planned answer.2 ∧
        job.HousesIn graph later body.blocks answer.1 made) :
    Lower.Gives (·.Within job.setting.program later none)
      (job.tree scope (.loop label entries body))
      fun answer made => job.Planned scope → job.Planned answer.2 ∧
        job.HousesIn graph later body.blocks answer.1 made := by
  rw [Job.tree]
  refine (gives _).bind fun inner => Lower.gives_addHelper.bind fun _ => ?_
  refine quiet_recurseAfter.skip fun recursing => quiet_returnAfter.skip fun returning => .pure ?_
  rintro _ rfl made follows planned
  obtain ⟨-, houses⟩ := follows (planned.insideLoop (List.Subset.refl _))
  rw [List.append_nil]
  exact ⟨planned, houses.snoc fun id block stands => .closed stands⟩

/-- The blocks of a tree stand in its code, or in functions that are made for it. -/
theorem gives_houses_tree {forest : LoopForest} {NotedAs : Option Loop → Tree → Prop}
    {around : Option Loop} {tree : Tree} (fits : GotoFree.Fits graph forest NotedAs around tree) :
    ∀ scope, Lower.Gives (·.Within job.setting.program later none) (job.tree scope tree)
      fun answer made => job.Planned scope → job.Planned answer.2 ∧
        job.HousesIn graph later tree.blocks answer.1 made := by
  induction fits with
  | jump part noted direct straight leaves =>
      intro scope
      rw [Tree.blocks_jump]
      exact gives_houses_jump straight
  | conditional part noted direct branching edges takenArm notTakenArm takenLeaves notTakenLeaves
      takenFits notTakenFits takenIh notTakenIh =>
      intro scope
      exact gives_houses_conditional
        (fun inner => gives_houses_arm fun tree same => takenIh tree same inner)
        fun inner => gives_houses_arm fun tree same => notTakenIh tree same inner
  | sequence part noted chain flat fits ih =>
      intro scope
      rw [Job.tree, Tree.blocks_sequence]
      exact gives_houses_elems ih scope
  | loop part noted nested head heads whole fits ih =>
      intro scope
      rw [Tree.blocks_loop]
      exact gives_houses_loop ih
  | merge part noted heads several isEntry incoming_iff leaves fits ih =>
      intro scope
      rw [Job.tree, Tree.blocks_merge]
      refine (gives_houses_alternatives fun tree member => ih tree member scope).bind fun stmts =>
        .pure ?_
      intro made houses planned
      rw [List.append_nil]
      refine ⟨planned, (houses planned).imp fun id body stands more => ?_⟩
      rw [Script.stmts_ofStmts_append]
      exact stands more.stmts

/-! ## Programs -/

/-- The instruction at a spot was lowered, and its steps stand in one of some functions. Behind
those of a branch comes the conditional on its condition. -/
def Stands (job : Job) (later : Agenda) (spot : Spot) (source : Instr)
    (functions : List Target.Function) : Prop :=
  ∃ scope code made, job.Lowers later spot scope source code made ∧ made ⊆ functions ∧
    ∃ function ∈ functions, ∃ back, IsRest (code.steps ++ back).stmts function.body ∧
      ∀ condition, code.condition = some condition → ∃ thenBranch elseBranch rest,
        back = .stmt (.cond condition thenBranch elseBranch) :: rest

/-- An instruction that stands in some functions stands in more. -/
theorem Stands.mono {functions others : List Target.Function}
    (stands : job.Stands later spot source functions) (more : functions ⊆ others) :
    job.Stands later spot source others := by
  obtain ⟨scope, code, made, lowers, isMade, function, isFunction, rest⟩ := stands
  exact ⟨scope, code, made, lowers, List.Subset.trans isMade more, function, more isFunction, rest⟩

/-- All instructions in the blocks that control may come to in the method stand in some
functions. -/
def StandsAll (job : Job) (later : Agenda) (functions : List Target.Function) : Prop :=
  ∀ block listed, job.method.Reaches block → job.method.block? block = some listed →
    ∀ index source, listed.instrs[index]? = some source →
      job.Stands later ⟨job.id, block, index⟩ source functions

end Job

namespace Block

variable {block : Block}

/-- A branch ends its block. -/
theorem isBranching_of_isBranch {index : Nat} {source : Instr}
    (ends : ∀ instr ∈ block.instrs.dropLast, instr.fanOut = 1)
    (isSource : block.instrs[index]? = some source) (isBranch : source.isBranch = true) :
    index + 1 = block.instrs.length ∧ block.isBranching = true := by
  obtain ⟨inside, same⟩ := List.getElem?_eq_some_iff.1 isSource
  have isLast : index + 1 = block.instrs.length := by
    by_contra inner
    have among : source ∈ block.instrs.dropLast :=
      List.mem_iff_getElem.2 ⟨index, by rw [List.length_dropLast]; omega, by simpa using same⟩
    have one := ends source among
    cases source <;> simp [Instr.isBranch, Instr.fanOut] at isBranch one
  refine ⟨isLast, ?_⟩
  have last : block.last? = some source := by
    rw [last?, List.getLast?_eq_getElem?, ← isLast]
    exact isSource
  rw [isBranching, last]
  exact isBranch

end Block

/-- Where the tree of a method is lowered behind the introductions of its entry, its instructions
stand in the functions that are made for it and in its own one. -/
theorem Job.standsAll_of_tree {job : Job} {graph : BlockGraph} {forest : LoopForest} {tree : Tree}
    {control entry steps : Script} {scope inside : Scope} {begun after : Progress}
    (built : BlockGraph.ofBlocks job.method.entry job.method.blocks = .ok graph)
    (isMarked : IsMarkedTree graph forest tree job.flags)
    (introduces : job.introduceEntry .empty job.plan.entry.entries = .ok (entry, scope))
    (none : begun.helpers = [])
    (lowered : job.tree scope tree begun = .ok ((steps, inside), after)) {name : String}
    {functions : List Target.Function} (isAll : functions = after.helpers ++
      [⟨name, job.method.incomingNames, job.closed inside (control ++ entry ++ steps)⟩]) :
    begun.agenda.Leads job.setting.program after.agenda ∧ job.StandsAll after.agenda functions := by
  have gives := @Job.gives_houses_tree job graph after.agenda _ _ _ _ isMarked.fits scope
  obtain ⟨within, more, isLast, follows⟩ := gives begun _ after lowered ⟨.refl _, nofun⟩
  have introduced : ∀ entry ∈ job.plan.entry.entries, entry ∈ job.plan.locals :=
    fun entry member => List.mem_append_left _ member
  obtain ⟨-, houses⟩ := follows (Job.planned_empty.introduced introduced introduces)
  rw [none, List.nil_append] at isLast
  rw [isLast] at isAll
  refine ⟨within.leads, ?_⟩
  intro block listed reached isBlock index source isSource
  have known := (Method.block?_eq_some_iff built).2 ⟨reached, isBlock⟩
  obtain ⟨body, own, holds, among, place⟩ :=
    houses.behind _ block ((isMarked.whole block).2 (BlockGraph.mem_ids_iff.2 ⟨listed, known⟩))
  have inner : own ⊆ functions := by
    rw [isAll]
    exact fun function member => List.mem_append_left _ (among member)
  -- The block stands in the function of the method, or in one that was made on the way.
  obtain ⟨function, isFunction, back, isRest, branches⟩ :
      ∃ function ∈ functions, Job.StandsIn graph block body function.body := by
    rw [isAll]
    obtain here | ⟨function, isMade, stands⟩ := place
    · exact ⟨_, List.mem_append_right _ (List.mem_singleton_self _), .closed here⟩
    · exact ⟨function, List.mem_append_left _ isMade, stands⟩
  obtain ⟨inside, head, made, front, rest, lowers, isOwn, same, atEnd⟩ :=
    holds listed isBlock index source isSource
  refine ⟨inside, head, made, lowers, List.Subset.trans isOwn inner, function, isFunction,
    rest ++ back, ?_, fun condition isCondition => ?_⟩
  · have split : body.steps ++ back = front ++ (head.steps ++ (rest ++ back)) := by simp [same]
    rw [split] at isRest
    exact Script.isRest_append.trans isRest
  · have ends := (BlockGraph.block_of_ofBlocks built known).2.2
    obtain ⟨isLast, isBranching⟩ :=
      Block.isBranching_of_isBranch ends isSource (lowers.isBranch isCondition)
    obtain ⟨rfl, conditions⟩ := atEnd isLast
    obtain ⟨test, thenBranch, elseBranch, others, isTest, rfl⟩ :=
      branches (by simpa [BlockGraph.isBranching, known] using isBranching)
    cases isTest.symm.trans (conditions condition isCondition)
    exact ⟨thenBranch, elseBranch, others, rfl⟩

/-- Every reachable instruction stands in a function of its method. -/
theorem Lower.stands_method {setting : Setting} {id : MethodId} {method : Method}
    {progress after : Progress} {code : MethodCode}
    (isMethod : setting.program.method? id = some method)
    (made : Lower.method setting id method progress = .ok (code, after)) :
    progress.agenda.Leads setting.program after.agenda ∧
      ∃ job : Job, job.setting = setting ∧ job.id = id ∧ job.method = method ∧
        method.checkedPlan = .ok job.plan ∧ job.StandsAll after.agenda code.functions := by
  obtain ⟨job, graph, forest, tree, entry, scope, steps, inside, begun, rfl, rfl, rfl, -, isPlan,
    built, -, isMarked, introduces, leads, none, -, lowered, functions⟩ :=
      method_cases isMethod made
  obtain ⟨within, stands⟩ :=
    Job.standsAll_of_tree built isMarked introduces none lowered functions
  exact ⟨leads.trans within, job, rfl, rfl, rfl, isPlan, stands⟩

/-- Every instruction in a block that control may come to, of a method that is reached, was lowered,
and its steps stand in a function of the program. -/
theorem Lower.stands_program {setting : Setting} {lowered : LoweredProgram} {last : Progress}
    (ran : Lower.program setting .start = .ok (lowered, last)) {id : MethodId}
    (isReached : setting.program.Reached id) :
    ∃ (job : Job) (agenda : Agenda), job.setting = setting ∧ job.id = id ∧
      setting.program.method? id = some job.method ∧ job.method.checkedPlan = .ok job.plan ∧
      agenda.Keeps last.agenda ∧ job.StandsAll agenda lowered.program.functions := by
  obtain ⟨ids, codes, sound, empty, good, functions, -⟩ :=
    @Lower.forall₂_program setting
      (fun later id code => ∃ (job : Job) (agenda : Agenda), job.setting = setting ∧ job.id = id ∧
        setting.program.method? id = some job.method ∧ job.method.checkedPlan = .ok job.plan ∧
        agenda.Keeps later ∧ job.StandsAll agenda code.functions)
      (fun agenda later id code keeps ⟨job, middle, ofJob, isId, isMethod, isPlan, kept, stands⟩ =>
        ⟨job, middle, ofJob, isId, isMethod, isPlan, kept.trans keeps, stands⟩)
      (fun id method progress code after isMethod made => by
        obtain ⟨leads, job, ofSetting, isId, rfl, isPlan, stands⟩ := stands_method isMethod made
        exact ⟨leads, job, after.agenda, ofSetting, isId, isMethod, isPlan, .refl _, stands⟩)
      _ _ ran
  obtain ⟨-, done, explored⟩ := explored_program ran
  have among := (sound.seen_iff id).1 ((explored.mem_seen_iff empty).2 isReached)
  rw [empty, List.append_nil] at among
  obtain ⟨code, isCode, job, agenda, ofSetting, isId, isMethod, isPlan, keeps, stands⟩ :=
    exists_of_mem_left good among
  refine ⟨job, agenda, ofSetting, isId, isMethod, isPlan, keeps, ?_⟩
  intro block listed reaches isBlock index source isSource
  refine (stands block listed reaches isBlock index source isSource).mono ?_
  rw [functions]
  exact fun function member => List.mem_flatMap.2 ⟨code, isCode, member⟩

end GotoFree
