import GotoFree.Proofs.ProperLoops
import GotoFree.Proofs.Recording
import GotoFree.Proofs.StoredFlags
import GotoFree.Proofs.TreeJudgements

/-!
# The flags in the code of a tree

The code of a marked tree stores each flag of its jumps once, on the way out of the block that the
flag belongs to, and compares the control cell with flags only (`Job.gives_stores_tree`). The places
are those of the tree: a node or an arm that jumps, or the return of a block. A test that is dropped
because nothing is left to guard has asked for its flags before; but those are recorded, so each of
them has a place all the same.
-/

namespace GotoFree

open LoopForest
open Target (Script Stmt)
open Target.Stmt (IsRest)

namespace Job

variable {job : Job} {graph : BlockGraph} {final : Progress} {scope : Scope} {id : BlockId}
  {coord : Coord} {steps : Script} {sites others : List Coord} {here there : Coord → Prop}
  {made functions : List Target.Function}

/-! ## Tests -/

/-- The flags of coordinates that are recorded are flags of the table. -/
theorem answers_recordedFlags {list : List Coord}
    (known : ∀ coord ∈ list, coord ∈ job.flags.recorded) :
    Lower.Answers (Flagging job.flags.recorded final) (list.mapM Lower.flag) fun flags =>
      ∀ flag ∈ flags, flag ∈ final.recorded.order.map (flagOf final) := by
  refine (Lower.Answers.mapM fun coord member => Flagging.flag (known coord member)).imp ?_
  intro flags answered flag member
  obtain ⟨coord, -, hasNumber, rfl⟩ := exists_of_mem_right answered member
  exact List.mem_map_of_mem hasNumber

/-- A test compares the control cell with flags. -/
def ComparesFlags (final : Progress) (test : Target.Expr) : Prop :=
  ∀ part ∈ test.parts, part.Compares controlCell (final.recorded.order.map (flagOf final))

/-- A test compares with flags of the table only, if it is built for such. -/
theorem answers_flagTest {fine : Progress → Prop} {flags : List Int} :
    Lower.Answers fine (flagTest flags) fun test =>
      (∀ flag ∈ flags, flag ∈ final.recorded.order.map (flagOf final)) →
        ComparesFlags final test := by
  unfold flagTest
  split
  · next test isTest => exact .pure (Target.Expr.compares_anyOf? isTest)
  · exact .throw

/-- A gate compares with flags of the table only. -/
theorem answers_gate {coords : CoordSet} (known : ∀ coord ∈ coords, coord ∈ job.flags.recorded) :
    Lower.Answers (Flagging job.flags.recorded final) (gate coords) (ComparesFlags final) := by
  unfold gate
  refine (answers_recordedFlags fun coord member =>
    known coord (SortedSet.mem_toList.1 member)).andThen fun flags => answers_flagTest

/-- The test for an alternative that does not start the method. -/
theorem answers_alternativeTest {merge : Label} {head : BlockId}
    (waits : ∀ coord ∈ merge.notes.awaited, coord ∈ job.flags.recorded)
    (other : head ≠ job.method.entry) :
    Lower.Answers (Flagging job.flags.recorded final) (job.alternativeTest merge head)
      (ComparesFlags final) := by
  unfold alternativeTest
  split
  · next choices chosen =>
    split
    · next coords found =>
      have known (coord : Coord) (member : coord ∈ coords.toList) : coord ∈ job.flags.recorded :=
        waits coord (Notes.mem_awaited.2 (.inr (.inl ⟨choices, chosen, coords,
          SortedMap.mem_values_iff.2 ⟨head, found⟩, SortedSet.mem_toList.1 member⟩)))
      refine (answers_recordedFlags known).andThen fun flags => ?_
      rw [if_neg other]
      exact answers_flagTest
    · exact .reject
  · exact .reject

/-- A conditional stores what its branches store. -/
theorem StoresFlags.cond {test : Target.Expr} {thenBranch elseBranch : List Stmt}
    {place : Coord → Prop} (tests : ComparesFlags final test)
    (taken : job.StoresFlags final sites here (Script.ofStmts thenBranch) made)
    (notTaken : job.StoresFlags final others there (Script.ofStmts elseBranch) functions)
    (inThen : ∀ coord, here coord → place coord) (inElse : ∀ coord, there coord → place coord) :
    job.StoresFlags final (sites ++ others) place [.stmt (.cond test thenBranch elseBranch)]
      (made ++ functions) := by
  refine ((taken.imp inThen).append (notTaken.imp inElse)).recast ?_ (fun part member => ?_)
    fun _ found => found
  · simp [Target.Step.collect, Stmt.collect, Stmt.ownWrites]
  · simp only [Script.collect_cons, Script.collect_nil, Target.Step.collect, Stmt.collect,
      List.append_nil, List.mem_append] at member
    rcases member with (own | inside) | inside
    · exact .inr (tests part (by simpa [Stmt.ownExprs, Stmt.operands] using own))
    · exact .inl (by simp [inside])
    · exact .inl (by simp [inside])

/-- A part of the code that only waits for flags. -/
abbrev Waits (job : Job) (final : Progress) (steps : Script) : Prop :=
  job.StoresFlags final [] (fun _ => False) steps []

/-- Waiting in front of code stores nothing. -/
theorem StoresFlags.waiting (stores : job.StoresFlags final sites here [] made)
    (waits : job.Waits final steps) : job.StoresFlags final sites here steps made := by
  simpa using stores.append (waits.imp nofun)

/-- A conditional return compares with flags of the table only. -/
theorem answers_returnIf {coords : CoordSet} {value : Target.Expr}
    (known : ∀ coord ∈ coords, coord ∈ job.flags.recorded) (isValue : value.SparesAll controlCell) :
    Lower.Answers (Flagging job.flags.recorded final) (returnIf coords value)
      (job.Waits final) := by
  unfold returnIf
  split
  · exact .pure (.of_spares Script.spares_nil sparedBy_nil)
  · refine (answers_gate known).andThen fun test => .pure fun tests => ?_
    have returns : job.Waits final (Script.ofStmts [.ret value]) :=
      .of_spares (Script.spares_ret.2 isValue) sparedBy_nil
    exact StoresFlags.cond tests returns (.of_spares Script.spares_nil sparedBy_nil)
      (fun _ found => found) fun _ (none : False) => none

/-- What runs the loop around another one again compares with flags of the table only. -/
theorem answers_recurseAfter {label : Label}
    (waits : ∀ coord ∈ label.notes.awaited, coord ∈ job.flags.recorded) :
    Lower.Answers (Flagging job.flags.recorded final) (job.recurseAfter scope label)
      (job.Waits final) := by
  have known : ∀ coord ∈ label.notes.recurseOn.getD .empty, coord ∈ job.flags.recorded := by
    intro coord member
    cases noted : label.notes.recurseOn with
    | none => simp [noted] at member
    | some coords =>
        rw [noted] at member
        exact waits coord (Notes.mem_awaited.2 (.inr (.inr (.inl ⟨coords, noted, member⟩))))
  unfold recurseAfter
  dsimp only
  split
  · exact .pure (.of_spares Script.spares_nil sparedBy_nil)
  · split
    · exact answers_returnIf known sparesAll_again
    · exact .reject

/-- What leaves a loop compares with flags of the table only. -/
theorem answers_returnAfter {label : Label}
    (waits : ∀ coord ∈ label.notes.awaited, coord ∈ job.flags.recorded) :
    Lower.Answers (Flagging job.flags.recorded final) (job.returnAfter scope label)
      (job.Waits final) := by
  have known : ∀ coord ∈ label.notes.returnOn.getD .empty, coord ∈ job.flags.recorded := by
    intro coord member
    cases noted : label.notes.returnOn with
    | none => simp [noted] at member
    | some coords =>
        rw [noted] at member
        exact waits coord (Notes.mem_awaited.2 (.inr (.inr (.inr ⟨coords, noted, member⟩))))
  unfold returnAfter
  refine (answers_returnIf (fun coord member => known coord (SortedSet.mem_filter.1 member).1)
    Target.Expr.sparesAll_var).andThen fun returning => ?_
  refine (answers_returnIf (fun coord member => known coord (SortedSet.mem_filter.1 member).1)
    sparesAll_emptyReturn).andThen fun leaving => .pure ?_
  exact fun second first => first.append second

/-! ## Scopes -/

/-- The locals of a scope are planned ones behind some instructions, too. -/
theorem yields_planned_instrs {index : Nat} {list : List Instr} (planned : job.Planned scope) :
    Lower.Yields (job.instrs id index scope list) fun body => job.Planned body.scope := by
  induction list generalizing index scope with
  | nil => exact .pure planned
  | cons first rest ih =>
      exact Lower.Yields.skip fun _ => (yields_planned_instr planned).bind fun head isPlanned =>
        (ih isPlanned).bind fun tail isPlanned => .pure isPlanned

/-- The locals of a scope are planned ones behind a block, too. -/
theorem yields_planned_block (planned : job.Planned scope) :
    Lower.Yields (job.block scope id) fun body => job.Planned body.scope := by
  unfold block
  split
  · exact .reject
  · refine Lower.Yields.check.bind fun opened opens => ?_
    exact (yields_planned_instrs (planned.opened (fun _ => BindingPlan.mem_locals_of_block)
      opens)).bind fun body isPlanned => .pure isPlanned

/-- The locals of a scope stay planned ones. -/
theorem preserves_planned : job.Preserves job.Planned Lower.Yields where
  pure := .pure
  bind := .bind
  internal := .reject
  insideLoop planned := planned.insideLoop (List.Subset.refl _)
  block := yields_planned_block
  jump := .any
  gate := .any
  alternativeTest := .any
  addHelper := .any
  recurseAfter := .any
  returnAfter := .any

/-- The locals of a scope are planned ones behind a tree, too. -/
theorem yields_planned_tree (tree : Tree) (scope : Scope) (planned : job.Planned scope) :
    Lower.Yields (job.tree scope tree) fun answer => job.Planned answer.2 :=
  preserves_planned.tree planned

/-! ## Trees -/

namespace StoresFlags

/-- The statements of a script store what the script does. -/
theorem stmts (stores : job.StoresIn final sites steps made) :
    job.StoresInBlock final sites steps.stmts made := by
  refine stores.recast (by simp) (fun part member => .inl (by simpa using member)) ?_
  intro coord recorded
  simpa using recorded []

/-- Flags that are stored in a script are stored in front of more code. -/
theorem before (stores : job.StoresIn final sites steps made) (back : Script) :
    job.StoresFlags final sites
      (fun coord => ∀ more, job.FlaggedIn final coord ((steps ++ back) ++ more).stmts)
      steps made := by
  refine stores.imp fun coord recorded more => ?_
  rw [List.append_assoc]
  exact recorded (back ++ more)

/-- Flags that are stored in a script are stored behind other code. -/
theorem behind (stores : job.StoresIn final sites steps made) (front : Script) :
    job.StoresFlags final sites
      (fun coord => ∀ more, job.FlaggedIn final coord ((front ++ steps) ++ more).stmts)
      steps made := by
  refine stores.imp fun coord recorded more => ?_
  rw [List.append_assoc]
  exact (recorded more).trans Script.isRest_append

/-- A body that returns at its end stores what its steps do. -/
theorem closed (stores : job.StoresIn final sites steps made) :
    job.StoresInBlock final sites (job.closed scope steps) made := by
  unfold Job.closed
  split
  · exact stores.stmts
  · have whole : job.StoresIn final (sites ++ []) (steps ++ [Script.ret (job.emptyReturn scope)])
        (made ++ []) :=
      (stores.before _).append
        (.of_spares (Script.spares_ret.2 sparesAll_emptyReturn) sparedBy_nil)
    rw [List.append_nil, List.append_nil] at whole
    exact whole.stmts

end StoresFlags

/-- A jump stores its flag, if something waits for it. -/
theorem gives_stores_leaving :
    Lower.Gives (Flagging job.flags.recorded final) (job.jump scope coord) fun leaving made =>
      made = [] ∧ ∀ {here : Coord → Prop},
      (job.Jumps (flagOf final coord) coord leaving → here coord) →
        job.StoresFlags final [coord] here leaving [] := by
  refine (Lower.Gives.also answers_jump yields_ran).imp ?_
  rintro leaving made ⟨⟨rfl, has, ending, rfl, spares⟩, begun, ended, ran⟩
  refine ⟨rfl, fun place => ?_⟩
  refine (storesFlags_recording has fun waits => place ?_).append (.of_spares spares sparedBy_nil)
  refine ⟨scope, begun, ended, ending, ran, ?_⟩
  rw [recording, if_pos waits]
  rfl

section Trees

variable (free : job.Avoids)
  (built : BlockGraph.ofBlocks job.method.entry job.method.blocks = .ok graph)

include free built

/-- A block that does not branch stores the flag of its way out. -/
theorem gives_stores_jump {label : Label} (planned : job.Planned scope)
    (known : label.head ∈ graph.ids) :
    Lower.Gives (Flagging job.flags.recorded final)
      (job.tree scope (.jump label ⟨label.head, .exit⟩)) fun answer made =>
        job.StoresIn final [⟨label.head, .exit⟩] answer.1 made := by
  rw [Job.tree]
  refine ((gives_ends_block free planned built known).also yields_ran).bind fun body => ?_
  split
  · next returned =>
    refine .pure ?_
    rintro made ⟨⟨⟨ends, -⟩, spared⟩, begun, ended, ran⟩
    rw [List.append_nil]
    refine (ends.returns returned).storesFlags spared fun shape more => ?_
    refine ⟨scope, begun, ended, body, more, ran, .whole, ?_⟩
    unfold Records
    dsimp only
    rw [if_pos returned]
    exact shape
  · next goesOn =>
    refine gives_stores_leaving.bind fun leaving => .pure ?_
    rintro _ ⟨rfl, jumping⟩ made ⟨⟨⟨ends, -⟩, spared⟩, begun, ended, ran⟩
    rw [List.append_nil]
    refine (StoresFlags.of_spares (ends.spares (by simpa using goesOn)) spared).append
      (jumping fun jumps more => ?_)
    refine ⟨scope, begun, ended, body, leaving ++ more, ran, ?_, ?_⟩
    · rw [List.append_assoc]
      exact .whole
    · unfold Records
      dsimp only
      rw [if_neg goesOn]
      exact ⟨leaving, more, jumps, rfl⟩

omit free built in
/-- An arm stores the flag of its jump first, or what the part that it holds stores. -/
theorem gives_stores_arm {forest : LoopForest} {around : Option Loop} {target : BlockId} {arm : Arm}
    (isArm : IsArm graph forest around coord target arm)
    (nested : ∀ tree, arm = .nested tree →
      Lower.Gives (Flagging job.flags.recorded final) (job.tree scope tree) fun answer made =>
        job.StoresIn final tree.jumpSites answer.1 made) :
    Lower.Gives (Flagging job.flags.recorded final) (job.arm scope arm) fun stmts made =>
      job.StoresFlags final (arm.site?.toList ++ Tree.sitesInArm arm)
        (fun other => job.FlaggedIn final other stmts ∨ (other = coord ∧
          ∃ leaving : Script, stmts = leaving.stmts ∧ job.Jumps (flagOf final coord) coord leaving))
        (Script.ofStmts stmts) made := by
  cases isArm with
  | jump =>
      rw [Job.arm]
      refine gives_stores_leaving.bind fun leaving => .pure ?_
      rintro _ ⟨rfl, jumping⟩
      have stores : job.StoresFlags final [coord] (fun other => other = coord ∧
          job.Jumps (flagOf final coord) coord leaving) leaving [] :=
        jumping fun jumps => ⟨rfl, jumps⟩
      refine stores.recast (by simp) (fun part member => .inl (by simpa using member)) ?_
      exact fun other ⟨same, jumps⟩ => .inr ⟨same, leaving, rfl, jumps⟩
  | @nested tree =>
      rw [Job.arm]
      refine (nested tree rfl).bind fun answer => .pure fun made stores => ?_
      rw [List.append_nil]
      exact stores.stmts.imp fun other recorded => .inl recorded

/-- A branching block stores no flag, but its arms may. -/
theorem gives_stores_conditional {forest : LoopForest} {around : Option Loop} {label : Label}
    {taken notTaken : Arm} {takenTarget notTakenTarget : BlockId} (planned : job.Planned scope)
    (known : label.head ∈ graph.ids) (branching : graph.isBranching label.head = true)
    (takenArm : IsArm graph forest around ⟨label.head, .taken⟩ takenTarget taken)
    (notTakenArm : IsArm graph forest around ⟨label.head, .notTaken⟩ notTakenTarget notTaken)
    (trees : ∀ tree, taken = .nested tree ∨ notTaken = .nested tree →
      ∀ inner, job.Planned inner → Lower.Gives (Flagging job.flags.recorded final)
        (job.tree inner tree) fun answer made => job.StoresIn final tree.jumpSites answer.1 made) :
    Lower.Gives (Flagging job.flags.recorded final)
      (job.tree scope (.conditional label taken notTaken)) fun answer made =>
        job.StoresIn final (Tree.conditional label taken notTaken).jumpSites answer.1 made := by
  rw [Job.tree]
  refine ((gives_ends_block free planned built known).also yields_ran).bind_yields
    (yields_planned_block planned) fun body plannedInside => ?_
  split
  · exact .reject
  · next condition isCondition =>
    refine (gives_stores_arm takenArm fun tree same =>
      trees tree (.inl same) body.scope plannedInside).bind fun thenBranch =>
        (gives_stores_arm notTakenArm fun tree same =>
          trees tree (.inr same) body.scope plannedInside).bind fun elseBranch => .pure ?_
    intro madeElse ofElse madeThen ofThen made
    rintro ⟨⟨⟨ends, goesOn⟩, spared⟩, begun, ended, ran⟩
    have tests : ComparesFlags final condition := fun part member =>
      (ends.condition condition isCondition part member).compares
    let whole : Script := body.steps ++ [Target.Step.stmt (.cond condition thenBranch elseBranch)]
    -- The arms are blocks of the conditional behind the steps.
    have branches {other : Coord} {stmts : List Stmt} (isBranch : ∀ more, IsRest stmts
        (.cond condition thenBranch elseBranch :: more))
        (recorded : job.FlaggedIn final other stmts) (more : Script) :
        job.FlaggedIn final other (whole ++ more).stmts := by
      rw [List.append_assoc]
      exact (recorded.trans (isBranch more.stmts)).trans
        (@Script.isRest_append body.steps (.stmt (.cond condition thenBranch elseBranch) :: more))
    have own {branch : Branch} (records : ∀ more : Script, job.Records (flagOf final ⟨label.head,
        branch⟩) ⟨label.head, branch⟩ body (.stmt (.cond condition thenBranch elseBranch) :: more))
        (more : Script) : job.FlaggedIn final ⟨label.head, branch⟩ (whole ++ more).stmts := by
      rw [List.append_assoc]
      exact ⟨scope, begun, ended, body, _, ran, .whole, records more⟩
    have arms := @StoresFlags.cond _ _ _ _ _ _ _ _ condition thenBranch elseBranch
      (fun other => ∀ more, job.FlaggedIn final other (whole ++ more).stmts)
      tests ofThen ofElse ?_ ?_
    · have sites : (taken.site?.toList ++ Tree.sitesInArm taken ++
          (notTaken.site?.toList ++ Tree.sitesInArm notTaken)).Perm
            (Tree.conditional label taken notTaken).jumpSites := by
        rw [Tree.jumpSites_conditional, List.append_assoc, List.append_assoc]
        exact (List.perm_append_comm_assoc _ _ _).append_left _
      rw [List.append_nil]
      exact ((StoresFlags.of_spares (ends.spares (goesOn branching)) spared).append arms).perm sites
    · rintro other (recorded | ⟨rfl, leaving, rfl, jumps⟩)
      · exact branches (fun _ => .taken .whole) recorded
      · exact own fun more => ⟨condition, leaving, elseBranch, more, isCondition, jumps, rfl⟩
    · rintro other (recorded | ⟨rfl, leaving, rfl, jumps⟩)
      · exact branches (fun _ => .notTaken .whole) recorded
      · exact own fun more => ⟨condition, thenBranch, leaving, more, isCondition, jumps, rfl⟩

omit free built in
/-- A sequence stores what its elements store, also those behind a gate. -/
theorem gives_stores_elems {elems : List Tree} (planned : job.Planned scope)
    (waits : ∀ tree ∈ elems, ∀ coord ∈ tree.notes.awaited, coord ∈ job.flags.recorded)
    (trees : ∀ tree ∈ elems, ∀ scope, job.Planned scope →
      Lower.Gives (Flagging job.flags.recorded final) (job.tree scope tree) fun answer made =>
        job.StoresIn final tree.jumpSites answer.1 made) :
    Lower.Gives (Flagging job.flags.recorded final) (job.elems scope elems) fun answer made =>
      job.StoresIn final (elems.flatMap Tree.jumpSites) answer.1 made := by
  induction elems generalizing scope with
  | nil => exact .pure (.of_spares Script.spares_nil sparedBy_nil)
  | cons tree rest ih =>
      obtain ⟨awaited, waits⟩ := List.forall_mem_cons.1 waits
      obtain ⟨here, trees⟩ := List.forall_mem_cons.1 trees
      unfold Job.elems
      split
      · next coords gate =>
        have known : ∀ coord ∈ coords, coord ∈ job.flags.recorded := fun coord member =>
          awaited coord (Notes.mem_awaited.2 (.inl ⟨coords, gate, member⟩))
        refine (answers_gate known).bind fun test => (here scope planned).bind fun answer =>
          (ih planned waits trees).bind fun last => .pure ?_
        intro more follows made stores tests
        rw [List.append_nil, List.flatMap_cons]
        refine StoresFlags.append ?_ (follows.behind _)
        have guarded := stores.stmts
        split
        · next none =>
          rw [none] at guarded
          exact guarded.imp fun other recorded _ => recorded.trans .nil
        · have nothing : job.StoresFlags final [] (fun _ => False) (Script.ofStmts []) [] :=
            .of_spares Script.spares_nil sparedBy_nil
          have guard : job.StoresFlags final (tree.jumpSites ++ []) (fun other => ∀ more : Script,
              job.FlaggedIn final other
                (.cond test answer.1.stmts [] :: (last.1 ++ more).stmts))
              [.stmt (.onlyIf test answer.1.stmts)] (made ++ []) :=
            StoresFlags.cond tests guarded nothing
              (fun other recorded more => recorded.trans (.taken .whole))
              (fun other none => none.elim)
          rw [List.append_nil, List.append_nil] at guard
          exact guard
      · refine (here scope planned).bind_yields (yields_planned_tree tree scope planned)
          fun answer plannedAfter => (ih plannedAfter waits trees).bind fun last => .pure ?_
        intro more follows made stores
        rw [List.append_nil, List.flatMap_cons]
        exact (stores.before last.1).append (follows.behind answer.1)

omit free built in
/-- A selection stores what its alternatives store. -/
theorem gives_stores_alternatives {merge : Label} {alternatives : List Tree}
    (planned : job.Planned scope)
    (waits : ∀ coord ∈ merge.notes.awaited, coord ∈ job.flags.recorded)
    (later : ∀ tree ∈ alternatives, tree.head ≠ job.method.entry)
    (trees : ∀ tree ∈ alternatives, ∀ scope, job.Planned scope →
      Lower.Gives (Flagging job.flags.recorded final) (job.tree scope tree) fun answer made =>
        job.StoresIn final tree.jumpSites answer.1 made) :
    Lower.Gives (Flagging job.flags.recorded final) (job.alternatives scope merge alternatives)
      fun stmts made => job.StoresFlags final (alternatives.flatMap Tree.jumpSites)
        (fun other => ∀ more, job.FlaggedIn final other (stmts ++ more)) (Script.ofStmts stmts)
          made := by
  induction alternatives with
  | nil =>
      refine .pure (.of_spares (Script.spares_stmt rfl rfl ?_) sparedBy_nil)
      simp [Stmt.assertFalse, Stmt.operands]
  | cons tree rest ih =>
      obtain ⟨notEntry, later⟩ := List.forall_mem_cons.1 later
      obtain ⟨here, trees⟩ := List.forall_mem_cons.1 trees
      unfold alternatives
      refine (answers_alternativeTest waits notEntry).bind fun test =>
        (here scope planned).bind fun answer => (ih later trees).bind fun others => .pure ?_
      intro more follows made stores tests
      rw [List.append_nil, List.flatMap_cons]
      refine StoresFlags.cond tests stores.stmts follows (fun other recorded back => ?_)
        fun other recorded back => ?_
      · exact recorded.trans (.taken .whole)
      · exact RecordedIn.trans (by simpa using recorded []) (.notTaken .whole)

omit free built in
/-- The function of a loop stores what the body of the loop does. -/
theorem gives_stores_loop {label : Label} {entries : SortedSet BlockId} {tree : Tree}
    (planned : job.Planned scope)
    (waits : ∀ coord ∈ label.notes.awaited, coord ∈ job.flags.recorded)
    (stores : ∀ scope, job.Planned scope →
      Lower.Gives (Flagging job.flags.recorded final) (job.tree scope tree) fun answer made =>
        job.StoresIn final tree.jumpSites answer.1 made) :
    Lower.Gives (Flagging job.flags.recorded final)
      (job.tree scope (.loop label entries tree)) fun answer made =>
        job.StoresIn final tree.jumpSites answer.1 made := by
  rw [Job.tree]
  refine (stores _ (planned.insideLoop (List.Subset.refl _))).bind fun inner =>
    Flagging.addHelper.bind fun _ => (answers_recurseAfter waits).bind fun recursing =>
      (answers_returnAfter waits).bind fun returning => .pure ?_
  rintro returns recurses _ rfl made inside
  have runs : Script.Spares controlCell (runLoop (job.loopFrame scope label) label) := by
    unfold runLoop
    split
    · exact Script.spares_bindName.2 sparesAll_again
    · exact Script.spares_stmt rfl rfl (by simpa [Stmt.operands] using sparesAll_again)
  have call : job.Waits final (runLoop (job.loopFrame scope label) label) :=
    .of_spares runs sparedBy_nil
  exact inside.closed.snoc.waiting ((call.append recurses).append returns)

/-- The code of a marked tree stores the flag of each of its jumps once, on the way along it, and
compares the control cell with flags only. -/
theorem gives_stores_tree {forest : LoopForest} {NotedAs : Option Loop → Tree → Prop}
    {around : Option Loop} {tree : Tree} (isOf : forest.IsOf graph)
    (fits : GotoFree.Fits graph forest NotedAs around tree) (owns : forest.Owns around)
    (waits : ∀ node ∈ tree.nodes, ∀ coord ∈ node.notes.awaited, coord ∈ job.flags.recorded) :
    ∀ scope, job.Planned scope →
      Lower.Gives (Flagging job.flags.recorded final) (job.tree scope tree) fun answer made =>
        job.StoresIn final tree.jumpSites answer.1 made := by
  have checked := BlockGraph.checked_ofBlocks built
  have known {around : Option Loop} {tree : Tree} (part : IsPartOf graph forest around tree)
      (owns : forest.Owns around) {id : BlockId} (own : id ∈ tree.blocks) : id ∈ graph.ids :=
    isOf.blocksOf_known owns (part.inside id own)
  induction fits with
  | @jump _ label part noted direct straight leaves =>
      intro scope planned
      exact gives_stores_jump free built planned (known part owns (by simp))
  | @conditional _ label taken notTaken _ _ part noted direct branching edges takenArm notTakenArm
      takenLeaves notTakenLeaves takenFits notTakenFits takenIh notTakenIh =>
      intro scope planned
      refine gives_stores_conditional free built planned (known part owns (by simp)) branching
        takenArm notTakenArm fun tree arm inner => ?_
      rcases arm with rfl | rfl
      · exact takenIh tree rfl owns
          (fun node member => waits node (Tree.nodes_subset_taken member)) inner
      · exact notTakenIh tree rfl owns
          (fun node member => waits node (Tree.nodes_subset_notTaken member)) inner
  | @sequence _ label first rest part noted chain flat fits ih =>
      intro scope planned
      rw [Job.tree, Tree.jumpSites_sequence]
      have inside {tree : Tree} (member : tree ∈ first :: rest) :=
        @Tree.nodes_subset_sequence label _ _ member
      refine gives_stores_elems planned (fun tree member =>
        waits tree (inside member (Tree.mem_nodes_self tree))) fun tree member => ?_
      exact ih tree member owns fun node among => waits node (inside member among)
  | loop part noted nested head heads whole fits ih =>
      intro scope planned
      rw [Tree.jumpSites_loop]
      have inner := owns_some (owns.mem_all (Loop.mem_flattenAll_of_mem nested))
      have here := waits _ (Tree.mem_nodes_self _)
      exact gives_stores_loop planned here
        (ih inner fun node member => waits node (Tree.nodes_subset_loop member))
  | @merge _ label alternatives incoming part noted heads several isEntry incoming_iff leaves fits
      ih =>
      intro scope planned
      have isMerge := GotoFree.Fits.merge part noted heads several isEntry incoming_iff leaves fits
      have later (tree : Tree) (member : tree ∈ alternatives) : tree.head ≠ job.method.entry :=
        Lower.entry_of_built built ▸ (isMerge.ne_entry_of_merge checked isOf owns tree member).1
      rw [Job.tree, Tree.jumpSites_merge]
      refine (gives_stores_alternatives planned (waits _ (Tree.mem_nodes_self _)) later
        fun tree member => ih tree member owns fun node among =>
          waits node (Tree.nodes_subset_merge member among)).bind fun stmts => .pure ?_
      intro made stores
      rw [List.append_nil]
      refine stores.imp fun other recorded more => ?_
      rw [Script.stmts_ofStmts_append]
      exact recorded more.stmts

end Trees

end Job

end GotoFree
