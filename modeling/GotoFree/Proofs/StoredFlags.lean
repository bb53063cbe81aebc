import GotoFree.Proofs.SparedCell

/-!
# Stored flags

Code stores the flags of some coordinates if each flag that something waits for is written to the
control cell by one statement, on the way out of the block along its coordinate, and if nothing
else is written there and the cell is compared with flags only (`Job.StoresFlags`). A jump stores
its flag first (`Job.answers_jump`), and a block stores one only if it returns
(`Job.gives_ends_block`).
-/

namespace GotoFree

open LoopForest
open Target (Script Stmt)
open Target.Stmt (IsRest)

namespace Job

variable {job : Job} {graph : BlockGraph} {final : Progress} {scope : Scope} {source : Instr}
  {id : BlockId} {coord : Coord} {body : Lowered} {steps more : Script} {sites others : List Coord}
  {here there : Coord → Prop} {made functions : List Target.Function}

/-! ## Stored flags -/

/-- What stores the flag of a coordinate, if something waits for it. -/
def recording (job : Job) (final : Progress) (coord : Coord) : Script :=
  if coord ∈ job.flags.recorded then [Script.assign controlCell (.int (flagOf final coord))] else []

/-- A coordinate has a flag, if something waits for it. -/
def HasFlag (job : Job) (final : Progress) (coord : Coord) : Prop :=
  coord ∈ job.flags.recorded → coord ∈ final.recorded.order

/-- The flags that are stored along some coordinates. -/
def flagsAlong (job : Job) (final : Progress) (sites : List Coord) : List Int :=
  (sites.filter (· ∈ job.flags.recorded)).map (flagOf final)

/-- What a jump along a coordinate has become; it stores a flag first. -/
def Jumps (job : Job) (flag : Int) (coord : Coord) (leaving : Script) : Prop :=
  ∃ scope begun ended ending, job.jump scope coord begun = .ok (leaving, ended) ∧
    leaving = Script.assign controlCell (.int flag) :: ending

/-- What a return from a block has become; it stores a flag first. -/
def Returns (job : Job) (flag : Int) (id : BlockId) (leaving : Script) : Prop :=
  ∃ scope value begun ended ending, job.ret scope id value begun = .ok (leaving, ended) ∧
    leaving = Script.assign controlCell (.int flag) :: ending

/-- A block is left along a coordinate by what stores a flag: at the end of its steps if it returns,
and otherwise right behind them, or in the arm of the conditional there. -/
def Records (job : Job) (flag : Int) (coord : Coord) (body : Lowered) (back : Script) : Prop :=
  match coord.branch with
  | .exit =>
      if body.returned then
        ∃ front leaving, job.Returns flag coord.block leaving ∧ body.steps = front ++ leaving
      else ∃ leaving rest, job.Jumps flag coord leaving ∧ back = leaving ++ rest
  | .taken => ∃ condition leaving elseBranch rest, body.condition = some condition ∧
      job.Jumps flag coord leaving ∧
        back = .stmt (.cond condition leaving.stmts elseBranch) :: rest
  | .notTaken => ∃ condition thenBranch leaving rest, body.condition = some condition ∧
      job.Jumps flag coord leaving ∧
        back = .stmt (.cond condition thenBranch leaving.stmts) :: rest

/-- At some point of some statements the code of a coordinate's block comes next, and is left along
the coordinate where the flag of the coordinate is stored. -/
def RecordedIn (job : Job) (flag : Int) (coord : Coord) (stmts : List Stmt) : Prop :=
  ∃ scope begun ended body back, job.block scope coord.block begun = .ok (body, ended) ∧
    IsRest (body.steps ++ back).stmts stmts ∧ job.Records flag coord body back

/-- The flag of a coordinate is stored in some statements, on the way along the coordinate. -/
abbrev FlaggedIn (job : Job) (final : Progress) (coord : Coord) (stmts : List Stmt) : Prop :=
  job.RecordedIn (flagOf final coord) coord stmts

/-- Code stores the flags of some coordinates that something waits for, each once and on the way
along it, either in a script or in functions that are made for it. Nothing else is written to the
control cell, and it is compared with flags only. -/
structure StoresFlags (job : Job) (final : Progress) (sites : List Coord) (here : Coord → Prop)
    (steps : Script) (made : List Target.Function) : Prop where
  flagged : ∀ coord ∈ sites, job.HasFlag final coord
  written : (steps.collect (Stmt.ownWrites controlCell) ++
    made.flatMap (Target.Function.writes controlCell)).Perm
      ((job.flagsAlong final sites).map .int)
  compared : ∀ part ∈ steps.collect Stmt.ownExprs ++ made.flatMap Target.Function.exprs,
    part.Compares controlCell (final.recorded.order.map (flagOf final))
  placed : ∀ coord ∈ sites, coord ∈ job.flags.recorded →
    here coord ∨ ∃ function ∈ made, job.FlaggedIn final coord function.body

/-- Code stores the flags of some coordinates, those in a script whatever comes behind it. -/
abbrev StoresIn (job : Job) (final : Progress) (sites : List Coord) (steps : Script)
    (made : List Target.Function) : Prop :=
  job.StoresFlags final sites (fun coord => ∀ more, job.FlaggedIn final coord (steps ++ more).stmts)
    steps made

/-- Statements and the functions that are made for them store the flags of some coordinates. -/
abbrev StoresInBlock (job : Job) (final : Progress) (sites : List Coord) (stmts : List Stmt)
    (made : List Target.Function) : Prop :=
  job.StoresFlags final sites (fun coord => job.FlaggedIn final coord stmts)
    (Script.ofStmts stmts) made

/-- A flag that is recorded in a block is recorded in what the block ends. -/
theorem RecordedIn.trans {flag : Int} {stmts block : List Stmt}
    (recorded : job.RecordedIn flag coord stmts) (rest : IsRest stmts block) :
    job.RecordedIn flag coord block := by
  obtain ⟨scope, begun, ended, body, back, ran, isRest, records⟩ := recorded
  exact ⟨scope, begun, ended, body, back, ran, isRest.trans rest, records⟩

/-- The flags along two lists of jumps are those along both. -/
theorem flagsAlong_append : job.flagsAlong final (sites ++ others) =
    job.flagsAlong final sites ++ job.flagsAlong final others := by
  simp [flagsAlong]

namespace StoresFlags

/-- Flags may be stored in another place. -/
theorem imp (stores : job.StoresFlags final sites here steps made)
    (weaken : ∀ coord, here coord → there coord) : job.StoresFlags final sites there steps made :=
  { stores with placed := fun coord member waits =>
      (stores.placed coord member waits).imp_left (weaken coord) }

/-- Code that leaves the control cell alone stores no flags. -/
theorem of_spares (spares : Script.Spares controlCell steps) (spared : SparedBy made) :
    job.StoresFlags final [] here steps made where
  flagged := nofun
  written := by
    have none : made.flatMap (Target.Function.writes controlCell) = [] := by
      refine List.flatMap_eq_nil_iff.2 fun function member => ?_
      simpa [Target.Function.writes] using (spared function member).writes
    simp [spares.writes, none, flagsAlong]
  compared := by
    intro part member
    apply Target.Expr.Spares.compares
    rcases List.mem_append.1 member with inside | inside
    · exact spares.exprs part inside
    · obtain ⟨function, among, own⟩ := List.mem_flatMap.1 inside
      exact (spared function among).exprs part (by simpa [Target.Function.exprs] using own)
  placed := nofun

/-- The flags of two parts are stored in both. -/
theorem append (first : job.StoresFlags final sites here steps made)
    (second : job.StoresFlags final others here more functions) :
    job.StoresFlags final (sites ++ others) here (steps ++ more) (made ++ functions) where
  flagged := List.forall_mem_append.2 ⟨first.flagged, second.flagged⟩
  written := by
    rw [flagsAlong_append, List.map_append, Script.collect_append, List.flatMap_append,
      List.append_assoc]
    refine .trans ?_ (first.written.append second.written)
    rw [List.append_assoc]
    exact List.perm_append_comm_assoc _ _ _ |>.append_left _
  compared := by
    intro part member
    simp only [Script.collect_append, List.flatMap_append, List.mem_append] at member
    have one := first.compared part
    have two := second.compared part
    rw [List.mem_append] at one two
    tauto
  placed := by
    intro coord member waits
    rcases List.mem_append.1 member with member | member
    · exact (first.placed coord member waits).imp_right fun ⟨function, isMade, recorded⟩ =>
        ⟨function, List.mem_append_left _ isMade, recorded⟩
    · exact (second.placed coord member waits).imp_right fun ⟨function, isMade, recorded⟩ =>
        ⟨function, List.mem_append_right _ isMade, recorded⟩

/-- The jumps may be listed in another order. -/
theorem perm (stores : job.StoresFlags final sites here steps made) (same : sites.Perm others) :
    job.StoresFlags final others here steps made where
  flagged := fun coord member => stores.flagged coord (same.mem_iff.2 member)
  written := stores.written.trans ((same.filter _).map _ |>.map _)
  compared := stores.compared
  placed := fun coord member => stores.placed coord (same.mem_iff.2 member)

/-- Code in which the same is written, and nothing else is taken from the control cell. -/
theorem recast (stores : job.StoresFlags final sites here steps made)
    (writes : more.collect (Stmt.ownWrites controlCell) =
      steps.collect (Stmt.ownWrites controlCell))
    (exprs : ∀ part ∈ more.collect Stmt.ownExprs, part ∈ steps.collect Stmt.ownExprs ∨
      part.Compares controlCell (final.recorded.order.map (flagOf final)))
    (weaken : ∀ coord, here coord → there coord) : job.StoresFlags final sites there more made where
  flagged := stores.flagged
  written := by rw [writes]; exact stores.written
  compared := by
    intro part member
    rcases List.mem_append.1 member with inside | inside
    · rcases exprs part inside with known | compares
      · exact stores.compared part (List.mem_append_left _ known)
      · exact compares
    · exact stores.compared part (List.mem_append_right _ inside)
  placed := fun coord member waits => (stores.placed coord member waits).imp_left (weaken coord)

/-- Flags that are stored in the body of a function are stored in a function that is made. -/
theorem snoc {name : String} {params : List String} {stmts : List Stmt}
    (stores : job.StoresInBlock final sites stmts made) :
    job.StoresFlags final sites there [] (made ++ [⟨name, params, stmts⟩]) where
  flagged := stores.flagged
  written := by
    refine .trans ?_ stores.written
    simpa [Target.Function.writes] using List.perm_append_comm
  compared := by
    intro part member
    apply stores.compared part
    simpa [Target.Function.exprs, or_comm] using member
  placed := by
    intro coord member waits
    refine .inr ?_
    rcases stores.placed coord member waits with recorded | ⟨other, isMade, recorded⟩
    · exact ⟨_, List.mem_append_right _ (List.mem_singleton_self _), recorded⟩
    · exact ⟨other, List.mem_append_left _ isMade, recorded⟩

end StoresFlags

/-- The step that stores a flag stores the flag of its coordinate. -/
theorem storesFlags_recording (has : job.HasFlag final coord)
    (place : coord ∈ job.flags.recorded → here coord) :
    job.StoresFlags final [coord] here (job.recording final coord) [] where
  flagged := List.forall_mem_singleton.2 has
  written := by
    unfold recording flagsAlong
    split
    · next waits => simp [waits, Script.assign, Target.Step.collect, Stmt.collect, Stmt.ownWrites]
    · next free => simp [free]
  compared := by
    unfold recording
    split
    · simp [Script.assign, Target.Step.collect, Stmt.collect, Stmt.ownExprs, Stmt.operands,
        Target.Expr.parts, Target.Expr.Compares]
    · simp
  placed := List.forall_mem_singleton.2 fun waits => .inl (place waits)

/-- What a step has answered is an answer of it. -/
theorem yields_ran {α : Type} {step : Lower α} :
    Lower.Yields step fun answer => ∃ begun ended, step begun = .ok (answer, ended) :=
  fun progress _ after ran => ⟨progress, after, ran⟩

/-- A flag that is asked for is one of those handed out. -/
theorem answers_record : Lower.Answers (Flagging job.flags.recorded final) (job.record coord)
    fun steps => job.HasFlag final coord ∧ steps = job.recording final coord := by
  unfold record recording HasFlag
  split
  · next waits =>
    refine (Flagging.flag waits).bind fun number => .pure ?_
    rintro ⟨known, rfl⟩
    exact ⟨rfl, fun _ => known, rfl⟩
  · next free => exact .pure ⟨fun waits => absurd waits free, rfl⟩

/-- A return at the end of a function does not store into the control cell. -/
theorem sparesAll_emptyReturn : (job.emptyReturn scope).SparesAll controlCell := by
  unfold emptyReturn
  split
  · split
    · exact sparesAll_default
    · exact Target.Expr.sparesAll_unit
  · exact sparesAll_default

/-- Running a loop again does not store into the control cell. -/
theorem sparesAll_again {frame : LoopFrame} : frame.again.SparesAll controlCell := by
  refine Target.Expr.sparesAll_call.2 fun arg member => ?_
  obtain ⟨name, -, rfl⟩ := List.mem_map.1 member
  exact Target.Expr.sparesAll_var

/-- A jump stores the flag of its coordinate first. -/
theorem answers_jump : Lower.Answers (Flagging job.flags.recorded final) (job.jump scope coord)
    fun steps => job.HasFlag final coord ∧ ∃ ending, steps = job.recording final coord ++ ending ∧
      Script.Spares controlCell ending := by
  unfold jump
  refine answers_record.andThen fun recording => ?_
  split
  · split
    · refine .pure ?_
      rintro ⟨has, rfl⟩
      exact ⟨has, _, rfl, Script.spares_ret.2 sparesAll_again⟩
    · exact .reject
  · split
    · refine .pure ?_
      rintro ⟨has, rfl⟩
      exact ⟨has, _, rfl, Script.spares_ret.2 sparesAll_emptyReturn⟩
    · refine .pure ?_
      rintro ⟨has, rfl⟩
      exact ⟨has, [], by simp, Script.spares_nil⟩

/-! ## Blocks -/

/-- The steps of a block end with a return, which stores the flag of the block first. -/
def EndsReturning (job : Job) (final : Progress) (id : BlockId) (steps : Script) : Prop :=
  job.HasFlag final ⟨id, .exit⟩ ∧ ∃ front ending scope value begun ended,
    Script.Spares controlCell front ∧ Script.Spares controlCell ending ∧
      job.ret scope id value begun = .ok (job.recording final ⟨id, .exit⟩ ++ ending, ended) ∧
        steps = front ++ (job.recording final ⟨id, .exit⟩ ++ ending)

/-- What a block has become stores a flag only if it returns. -/
structure Ends (job : Job) (final : Progress) (id : BlockId) (body : Lowered) : Prop where
  returns : body.returned = true → job.EndsReturning final id body.steps
  spares : body.returned = false → Script.Spares controlCell body.steps
  condition : ∀ condition, body.condition = some condition → condition.SparesAll controlCell

/-- Code that returns does so behind other code. -/
theorem EndsReturning.behind {front : Script} (returns : job.EndsReturning final id steps)
    (spares : Script.Spares controlCell front) : job.EndsReturning final id (front ++ steps) := by
  obtain ⟨has, inner, ending, scope, value, begun, ended, others, isEnding, ran, rfl⟩ := returns
  refine ⟨has, front ++ inner, ending, scope, value, begun, ended,
    Script.spares_append.2 ⟨spares, others⟩, isEnding, ran, ?_⟩
  rw [List.append_assoc]

/-- What a return ties does not store into the control cell. -/
theorem spares_returnAliases :
    Script.Spares controlCell (Script.ofStmts (job.returnAliases scope)) := by
  refine Script.spares_ofStmts_iff.2 fun stmt member => ?_
  obtain ⟨param, -, made⟩ := List.mem_filterMap.1 member
  obtain ⟨target, -, made⟩ := Option.bind_eq_some_iff.1 made
  split at made
  · cases made
    exact Script.spares_stmt rfl rfl (by simp [Stmt.operands])
  · cases made

/-- A block that returns stores the flag of its return, if something waits for it. -/
theorem EndsReturning.storesFlags (returns : job.EndsReturning final id steps)
    (spared : SparedBy made)
    (place : (∃ front leaving, job.Returns (flagOf final ⟨id, .exit⟩) id leaving ∧
      steps = front ++ leaving) → here ⟨id, .exit⟩) :
    job.StoresFlags final [⟨id, .exit⟩] here steps made := by
  obtain ⟨has, front, ending, scope, value, begun, ended, spares, isEnding, ran, rfl⟩ := returns
  have before : job.StoresFlags final [] here front [] := .of_spares spares sparedBy_nil
  have behind : job.StoresFlags final [] here ending made := .of_spares isEnding spared
  refine before.append ((storesFlags_recording has fun waits => place ?_).append behind)
  refine ⟨front, _, ⟨scope, value, begun, ended, ending, ran, ?_⟩, rfl⟩
  rw [recording, if_pos waits]
  rfl

/-- Steps that leave the control cell alone neither return nor branch. -/
theorem Ends.plain {answer : Script × Scope} (spares : Script.Spares controlCell answer.1) :
    job.Ends final id (.plain answer) where
  returns := by simp [Lowered.plain]
  spares := fun _ => spares
  condition := by simp [Lowered.plain]

/-- Nothing comes behind a return. -/
theorem Ends.append {head tail : Lowered} (own : job.Ends final id head)
    (behind : job.Ends final id tail)
    (last : head.returned = true → tail.steps = [] ∧ tail.returned = false) :
    job.Ends final id ⟨head.steps ++ tail.steps, tail.scope, tail.condition <|> head.condition,
      head.returned || tail.returned⟩ where
  returns := by
    intro returned
    cases isLast : head.returned with
    | true =>
        rw [(last isLast).1, List.append_nil]
        exact own.returns isLast
    | false => exact (behind.returns (by simpa [isLast] using returned)).behind (own.spares isLast)
  spares := by
    intro goesOn
    obtain ⟨first, second⟩ := Bool.or_eq_false_iff.1 goesOn
    exact Script.spares_append.2 ⟨own.spares first, behind.spares second⟩
  condition := by
    intro condition isCondition
    cases known : tail.condition with
    | none => exact own.condition condition (by simpa [known] using isCondition)
    | some other => exact behind.condition condition (by simpa [known] using isCondition)

section Blocks

variable (free : job.Avoids)

include free

/-- A return stores the flag of its block first. -/
theorem answers_ret (planned : job.Planned scope) {value : Option Operand} :
    Lower.Answers (Flagging job.flags.recorded final) (job.ret scope id value) fun steps =>
      job.HasFlag final ⟨id, .exit⟩ ∧ ∃ ending, steps = job.recording final ⟨id, .exit⟩ ++ ending ∧
        Script.Spares controlCell ending := by
  have answers {value : Target.Expr} (isValue : value.SparesAll controlCell) :
      Lower.Answers (Flagging job.flags.recorded final) (do
        let recording ← job.record ⟨id, .exit⟩
        return recording ++ Script.ofStmts (job.returnAliases scope) ++ [Script.ret value])
        fun steps => job.HasFlag final ⟨id, .exit⟩ ∧ ∃ ending,
          steps = job.recording final ⟨id, .exit⟩ ++ ending ∧ Script.Spares controlCell ending := by
    refine answers_record.andThen fun recording => .pure ?_
    rintro ⟨has, rfl⟩
    exact ⟨has, _, List.append_assoc _ _ _,
      Script.spares_append.2 ⟨spares_returnAliases, Script.spares_ret.2 isValue⟩⟩
  cases value with
  | none => exact answers Target.Expr.sparesAll_unit
  | some operand =>
      exact .check_bind fun value found => answers (spares_operand free planned found).1

/-- An instruction stores a flag only if it returns. -/
theorem gives_ends_instr (planned : job.Planned scope) :
    Lower.Gives (Flagging job.flags.recorded final) (job.instr id scope source)
      fun code made => (job.Ends final id code ∧ code.returned = source.isReturn) ∧
        SparedBy made := by
  cases source with
  | branch condition =>
      refine (gives_spares_expr free planned).bind fun computed => .pure ?_
      rintro made ⟨spares, spared⟩
      rw [List.append_nil]
      refine ⟨⟨⟨nofun, fun _ => ?_, ?_⟩, rfl⟩, spared⟩
      · exact Script.spares_append.2 ⟨spares.before, spares.after⟩
      · rintro _ ⟨⟩
        exact spares.value
  | goto => exact .pure ⟨⟨Ends.plain Script.spares_nil, rfl⟩, sparedBy_nil⟩
  | ret value =>
      refine (Lower.Gives.also (answers_ret free planned) yields_ran).bind fun steps => .pure ?_
      rintro _ ⟨⟨rfl, has, ending, rfl, spares⟩, begun, ended, ran⟩
      have returns : job.EndsReturning final id (job.recording final ⟨id, .exit⟩ ++ ending) :=
        ⟨has, [], ending, scope, value, begun, ended, Script.spares_nil, spares, ran, rfl⟩
      exact ⟨⟨⟨fun _ => returns, nofun, nofun⟩, rfl⟩, sparedBy_nil⟩
  | identity target from_ =>
      unfold instr
      dsimp only
      split
      · exact .pure ⟨⟨Ends.plain Script.spares_nil, rfl⟩, sparedBy_nil⟩
      · refine Lower.Answers.skip ?_ fun param => .check_bind fun answer stored => .pure ?_
        · unfold nameOfSource
          split
          · split
            · exact .pure trivial
            · exact .throw
          · exact .reject
        · exact ⟨⟨.plain (spares_store free planned Target.Expr.sparesAll_var stored), rfl⟩,
            sparedBy_nil⟩
  | assign | call | nop | throw | aliased =>
      refine (gives_spares_plainInstr free planned).bind fun answer => .pure ?_
      rintro made ⟨spares, spared⟩
      rw [List.append_nil]
      exact ⟨⟨.plain spares, rfl⟩, spared⟩

/-- Instructions store a flag only if the last one returns. -/
theorem gives_ends_instrs {index : Nat} {list : List Instr} (planned : job.Planned scope)
    (ends : ∀ instr ∈ list.dropLast, instr.fanOut = 1) :
    Lower.Gives (Flagging job.flags.recorded final) (job.instrs id index scope list)
      fun body made => (job.Ends final id body ∧
        body.returned = list.getLast?.any Instr.isReturn ∧
          (list = [] → body.steps = [])) ∧ SparedBy made := by
  induction list generalizing index scope with
  | nil => exact .pure ⟨⟨.plain Script.spares_nil, rfl, fun _ => rfl⟩, sparedBy_nil⟩
  | cons first rest ih =>
      have later : ∀ instr ∈ rest.dropLast, instr.fanOut = 1 := by
        intro instr member
        cases rest with
        | nil => cases member
        | cons second others => exact ends instr (List.mem_cons_of_mem _ member)
      refine Flagging.enter.skip fun _ => (gives_ends_instr free planned).bind_yields
        (yields_planned_instr planned) fun head plannedAfter =>
          (ih plannedAfter later).bind fun tail => .pure ?_
      rintro more ⟨⟨behind, last, atEnd⟩, spared⟩ made ⟨⟨own, isReturn⟩, sparedOwn⟩
      rw [List.append_nil]
      -- Nothing follows an instruction that returns.
      have alone (isRet : first.isReturn = true) : rest = [] := by
        cases rest with
        | nil => rfl
        | cons second others =>
            have one := ends first List.mem_cons_self
            cases first <;> simp [Instr.isReturn, Instr.fanOut] at isRet one
      refine ⟨⟨own.append behind fun returned => ?_, ?_, by simp⟩, sparedOwn.append spared⟩
      · obtain rfl := alone (isReturn ▸ returned)
        exact ⟨atEnd rfl, last⟩
      · cases rest with
        | nil => simp [isReturn, last]
        | cons second others =>
            have inner : first.isReturn = false := by
              by_contra isRet
              cases alone (by simpa using isRet)
            simp [isReturn, last, inner]

/-- A block of the graph stores a flag only if it returns, and a branching one does not. -/
theorem gives_ends_block (planned : job.Planned scope)
    (built : BlockGraph.ofBlocks job.method.entry job.method.blocks = .ok graph)
    (known : id ∈ graph.ids) :
    Lower.Gives (Flagging job.flags.recorded final) (job.block scope id)
      fun body made => (job.Ends final id body ∧
        (graph.isBranching id = true → body.returned = false)) ∧ SparedBy made := by
  obtain ⟨listed, found⟩ := BlockGraph.mem_ids_iff.1 known
  obtain ⟨-, isListed, ends⟩ := BlockGraph.block_of_ofBlocks built found
  unfold block
  split
  · exact .reject
  · next block isBlock =>
    cases isListed.symm.trans isBlock
    refine .check_bind fun opened opens => ?_
    have plannedInside := planned.opened (fun _ => BindingPlan.mem_locals_of_block) opens
    refine (gives_ends_instrs free plannedInside ends).bind fun body => .pure ?_
    rintro made ⟨⟨isEnd, returned, -⟩, spared⟩
    rw [List.append_nil]
    have opening := spares_openBlock opens
    refine ⟨⟨⟨fun returns => (isEnd.returns returns).behind opening, fun goesOn =>
      Script.spares_append.2 ⟨opening, isEnd.spares goesOn⟩, isEnd.condition⟩, fun branches => ?_⟩,
      spared⟩
    rw [BlockGraph.isBranching, found, Option.any_some, Block.isBranching, Block.last?] at branches
    rw [returned]
    cases last : listed.instrs.getLast? with
    | none => rfl
    | some instr =>
        rw [last, Option.any_some] at branches
        cases instr <;> simp [Instr.isBranch, Instr.isReturn] at branches ⊢

end Blocks

end Job

end GotoFree
