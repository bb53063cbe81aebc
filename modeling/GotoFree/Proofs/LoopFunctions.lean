import GotoFree.Proofs.FunctionNames
import GotoFree.Proofs.ReturnedValues

/-!
# The functions of loops

Every node of a tree is lowered, and its code stands in the code of the tree or in a function that
is made for it (`Job.gives_nodes_tree`). So the node of a loop has a function, which its code runs
as a statement if no block of the loop returns, and binds the value of if one does; the function
returns accordingly (`Lower.method_loops`).
-/

namespace GotoFree

open Target (Script Step Stmt)
open Target.Stmt (IsRest)

/-- The call of a function with its own parameters. -/
def Target.Function.again (function : Target.Function) : Target.Expr :=
  .call function.name (function.params.map .var)

/-- What a step gives, with its run. -/
theorem Lower.Gives.andRan {α : Type} {fine : Progress → Prop} {step : Lower α}
    {post : α → List Target.Function → Prop} (gives : Gives fine step post) :
    Gives fine step fun answer made => post answer made ∧ ∃ progress after,
      step progress = .ok (answer, after) ∧ fine after ∧
        after.helpers = progress.helpers ++ made := by
  intro progress answer after ran isFine
  obtain ⟨wasFine, made, helpers, found⟩ := gives progress answer after ran isFine
  exact ⟨wasFine, made, helpers, found, progress, after, ran, isFine, helpers⟩

namespace Job

/-! ## Nodes -/

/-- At some point of some statements some code comes next. -/
def StandsAt (stmts : List Stmt) (code : Script) : Prop :=
  ∃ back, IsRest (code ++ back).stmts stmts

variable {job : Job} {later : Agenda} {scope : Scope} {nodes others : List Tree}
  {here there : Script → Prop} {steps : Script} {made more : List Target.Function}

/-- Code that stands in a block stands in what the block ends. -/
theorem StandsAt.trans {stmts block : List Stmt} {code : Script} (stands : StandsAt stmts code)
    (rest : IsRest stmts block) : StandsAt block code := by
  obtain ⟨back, isRest⟩ := stands
  exact ⟨back, isRest.trans rest⟩

/-- Code in a branch of the last statement of a script, whatever comes behind it. -/
theorem StandsAt.branch {stmts : List Stmt} {front code : Script} {last : Stmt}
    (stands : StandsAt stmts code) (isBranch : ∀ more, IsRest stmts (last :: more))
    (back : Script) : StandsAt (front ++ [Step.stmt last] ++ back).stmts code := by
  rw [List.append_assoc]
  exact (stands.trans (isBranch back.stmts)).trans
    (@Script.isRest_append front (.stmt last :: back))

/-- A node was lowered into some code, with some functions. -/
def LowersNode (job : Job) (later : Agenda) (node : Tree) (code : Script)
    (made : List Target.Function) : Prop :=
  ∃ scope begun after ended, job.tree scope node begun = .ok ((code, after), ended) ∧
    ended.Within job.setting.program later none ∧ ended.helpers = begun.helpers ++ made

/-- Some nodes were lowered, each of them into some code or into a function that was made. -/
def HoldsNodes (job : Job) (later : Agenda) (nodes : List Tree) (here : Script → Prop)
    (made : List Target.Function) : Prop :=
  ∀ node ∈ nodes, ∃ code own, job.LowersNode later node code own ∧ own ⊆ made ∧
    (here code ∨ ∃ function ∈ made, StandsAt function.body code)

/-- Some nodes stand in a script, whatever comes behind it. -/
abbrev HoldsNodesIn (job : Job) (later : Agenda) (nodes : List Tree) (steps : Script)
    (made : List Target.Function) : Prop :=
  job.HoldsNodes later nodes (fun code => ∀ more : Script, StandsAt (steps ++ more).stmts code) made

namespace HoldsNodes

theorem nil : job.HoldsNodes later [] here made := nofun

/-- Nodes may stand in another place. -/
theorem imp (keeps : job.HoldsNodes later nodes here made)
    (weaken : ∀ code, here code → there code) : job.HoldsNodes later nodes there made := by
  intro node member
  obtain ⟨code, own, lowers, among, place⟩ := keeps node member
  exact ⟨code, own, lowers, among, place.imp_left (weaken code)⟩

/-- Nodes go on to stand in the functions that are made later. -/
theorem mono (keeps : job.HoldsNodes later nodes here made) (among : made ⊆ more) :
    job.HoldsNodes later nodes here more := by
  intro node member
  obtain ⟨code, own, lowers, inside, place⟩ := keeps node member
  exact ⟨code, own, lowers, List.Subset.trans inside among,
    place.imp_right fun ⟨function, isMade, stands⟩ => ⟨function, among isMade, stands⟩⟩

/-- Nodes of two parts stand in one place or in the functions of both. -/
theorem append (first : job.HoldsNodes later nodes here made)
    (second : job.HoldsNodes later others here more) :
    job.HoldsNodes later (nodes ++ others) here (made ++ more) :=
  List.forall_mem_append.2 ⟨first.mono (List.subset_append_left _ _),
    second.mono (List.subset_append_right _ _)⟩

/-- Nodes that stand in the body of a function stand in a function that is made. -/
theorem snoc {function : Target.Function} (keeps : job.HoldsNodes later nodes here made)
    (inside : ∀ code, here code → StandsAt function.body code) :
    job.HoldsNodes later nodes there (made ++ [function]) := by
  intro node member
  obtain ⟨code, own, lowers, among, place⟩ :=
    keeps.mono (List.subset_append_left made [function]) node member
  refine ⟨code, own, lowers, among, .inr ?_⟩
  rcases place with stands | found
  · exact ⟨function, by simp, inside code stands⟩
  · exact found

/-- A node whose inner nodes were lowered with it. -/
theorem node {tree : Tree} {answer : Script × Scope}
    (inner : job.HoldsNodesIn later nodes answer.1 made)
    (ran : ∃ progress after, job.tree scope tree progress = .ok (answer, after) ∧
      after.Within job.setting.program later none ∧ after.helpers = progress.helpers ++ made) :
    job.HoldsNodesIn later (tree :: nodes) answer.1 made := by
  obtain ⟨begun, ended, goes, within, helpers⟩ := ran
  refine List.forall_mem_cons.2 ⟨?_, inner⟩
  exact ⟨answer.1, made, ⟨scope, begun, answer.2, ended, goes, within, helpers⟩,
    List.Subset.refl _, .inl fun back => ⟨back, .whole⟩⟩

/-- Nodes in a script stand in its statements. -/
theorem stmts (keeps : job.HoldsNodesIn later nodes steps made) :
    job.HoldsNodes later nodes (StandsAt steps.stmts) made :=
  keeps.imp fun code stands => by simpa using stands []

theorem before (keeps : job.HoldsNodesIn later nodes steps made) (back : Script) :
    job.HoldsNodesIn later nodes (steps ++ back) made := by
  refine keeps.imp fun code stands more => ?_
  rw [List.append_assoc]
  exact stands (back ++ more)

theorem behind (keeps : job.HoldsNodesIn later nodes steps made) (front : Script) :
    job.HoldsNodesIn later nodes (front ++ steps) made := by
  refine keeps.imp fun code stands more => ?_
  rw [List.append_assoc]
  exact (stands more).trans Script.isRest_append

end HoldsNodes

/-- Code in the body of a function stands there when the body is closed. -/
theorem standsAt_closed {code : Script}
    (stands : ∀ more : Script, StandsAt (steps ++ more).stmts code) :
    StandsAt (job.closed scope steps) code := by
  unfold closed
  split
  · simpa using stands []
  · exact stands _

/-- A node is lowered with its inner nodes. -/
theorem gives_node {tree : Tree} (inner : Lower.Gives (·.Within job.setting.program later none)
      (job.tree scope tree) fun answer made => job.HoldsNodesIn later nodes answer.1 made) :
    Lower.Gives (·.Within job.setting.program later none) (job.tree scope tree)
      fun answer made => job.HoldsNodesIn later (tree :: nodes) answer.1 made :=
  inner.andRan.imp fun _ _ found => found.1.node found.2

mutual

/-- Every node of a tree is lowered, and its code stands in that of the tree or in a function that
is made for it. -/
theorem gives_nodes_tree {scope : Scope} {tree : Tree} :
    Lower.Gives (·.Within job.setting.program later none) (job.tree scope tree)
      fun answer made => job.HoldsNodesIn later tree.nodes answer.1 made := by
  cases tree with
  | jump label coord =>
      rw [Tree.nodes]
      refine gives_node ?_
      rw [Job.tree]
      refine gives_block.bind fun body => ?_
      split
      · exact .pure fun made _ => .nil
      · exact quiet_jump.skip fun steps => .pure fun made _ => .nil
  | conditional label taken notTaken =>
      rw [Tree.nodes]
      refine gives_node ?_
      rw [Job.tree]
      refine gives_block.bind fun body => ?_
      split
      · exact .reject
      · refine gives_nodes_arm.bind fun thenBranch => gives_nodes_arm.bind fun elseBranch =>
          .pure ?_
        intro madeElse inElse madeThen inThen made _
        rw [List.append_nil]
        refine (HoldsNodes.append ?_ ?_).mono (List.subset_append_right _ _)
        · exact inThen.imp fun code stands => stands.branch fun _ => .taken .whole
        · exact inElse.imp fun code stands => stands.branch fun _ => .notTaken .whole
  | sequence label elems =>
      rw [Tree.nodes]
      refine gives_node ?_
      rw [Job.tree]
      exact gives_nodes_elems
  | loop label entries body =>
      rw [Tree.nodes]
      refine gives_node ?_
      rw [Job.tree]
      refine gives_nodes_tree.bind fun inner => Lower.gives_addHelper.bind fun _ =>
        quiet_recurseAfter.skip fun recursing => quiet_returnAfter.skip fun returning => .pure ?_
      rintro _ rfl made keeps
      rw [List.append_nil]
      exact keeps.snoc fun code stands => standsAt_closed stands
  | merge label alternatives incoming =>
      rw [Tree.nodes]
      refine gives_node ?_
      rw [Job.tree]
      refine gives_nodes_alternatives.bind fun stmts => .pure fun made keeps => ?_
      rw [List.append_nil]
      refine keeps.imp fun code stands more => ?_
      rw [Script.stmts_ofStmts_append]
      exact stands more.stmts

/-- The nodes of an arm are lowered into its statements. -/
theorem gives_nodes_arm {scope : Scope} {arm : Arm} :
    Lower.Gives (·.Within job.setting.program later none) (job.arm scope arm)
      fun stmts made => job.HoldsNodes later (Tree.nodesOfArm arm) (StandsAt stmts) made := by
  cases arm with
  | jump coord jumps =>
      rw [Job.arm, Tree.nodesOfArm]
      exact quiet_jump.skip fun leaving => .pure .nil
  | nested tree =>
      rw [Job.arm, Tree.nodesOfArm]
      refine gives_nodes_tree.bind fun answer => .pure fun made keeps => ?_
      rw [List.append_nil]
      exact keeps.stmts

/-- The nodes of the elements of a sequence are lowered into its code. -/
theorem gives_nodes_elems {scope : Scope} {elems : List Tree} :
    Lower.Gives (·.Within job.setting.program later none) (job.elems scope elems)
      fun answer made => job.HoldsNodesIn later (Tree.nodesOfAll elems) answer.1 made := by
  cases elems with
  | nil => exact .pure .nil
  | cons tree rest =>
      rw [Job.elems, Tree.nodesOfAll]
      split
      · refine quiet_gate.skip fun test => gives_nodes_tree.bind fun answer =>
          gives_nodes_elems.bind fun last => .pure ?_
        intro more follows made inside
        rw [List.append_nil]
        refine HoldsNodes.append ?_ (follows.behind _)
        refine inside.stmts.imp fun code stands back => ?_
        split
        · next none =>
          rw [none] at stands
          exact stands.trans .nil
        · exact stands.trans (.taken .whole)
      · refine gives_nodes_tree.bind fun answer => gives_nodes_elems.bind fun last => .pure ?_
        intro more follows made inside
        rw [List.append_nil]
        exact (inside.before last.1).append (follows.behind answer.1)

/-- The nodes of the alternatives of a merge are lowered into its statements. -/
theorem gives_nodes_alternatives {scope : Scope} {merge : Label} {alternatives : List Tree} :
    Lower.Gives (·.Within job.setting.program later none)
      (job.alternatives scope merge alternatives)
      fun stmts made => job.HoldsNodes later (Tree.nodesOfAll alternatives)
        (fun code => ∀ more, StandsAt (stmts ++ more) code) made := by
  cases alternatives with
  | nil => exact .pure .nil
  | cons tree rest =>
      rw [Job.alternatives, Tree.nodesOfAll]
      refine quiet_alternativeTest.skip fun test => gives_nodes_tree.bind fun answer =>
        gives_nodes_alternatives.bind fun others => .pure ?_
      intro more follows made inside
      rw [List.append_nil]
      refine (inside.stmts.imp fun code stands back => ?_).append
        (follows.imp fun code stands back => ?_)
      · exact stands.trans (.taken .whole)
      · exact StandsAt.trans (by simpa using stands []) (.notTaken .whole)

end

/-! ## Loops -/

/-- A loop is run by one step, which takes the value of the loop's function if it has one. -/
theorem exists_runLoop (frame : LoopFrame) (label : Label) : ∃ run, runLoop frame label = [run] ∧
    (frame.yieldsValue = true → run = Script.bindName (loopResult label) frame.again) ∧
      (¬ frame.yieldsValue = true → run = .stmt (.expr frame.again)) := by
  unfold runLoop
  split
  · next yields => exact ⟨_, rfl, fun _ => rfl, fun silent => absurd yields silent⟩
  · next silent => exact ⟨_, rfl, fun yields => absurd yields silent, fun _ => rfl⟩

/-- The node of a loop becomes a function, and code that begins with what runs it. -/
theorem gives_loop {label : Label} {entries : SortedSet BlockId} {body : Tree} :
    Lower.Gives (·.Within job.setting.program later none)
      (job.tree scope (.loop label entries body)) fun answer made =>
        ∃ begun steps after ended rest,
          job.tree (scope.insideLoop (job.loopFrame scope label)) body begun =
            .ok ((steps, after), ended) ∧
          ⟨job.loopName label.head, job.loopParams scope, job.closed after steps⟩ ∈ made ∧
          answer.1 = runLoop (job.loopFrame scope label) label ++ rest := by
  rw [Job.tree]
  refine gives_nodes_tree.andRan.bind fun inner => Lower.gives_addHelper.bind fun _ =>
    quiet_recurseAfter.skip fun recursing => quiet_returnAfter.skip fun returning => .pure ?_
  rintro _ rfl made ⟨-, begun, ended, ran, -⟩
  refine ⟨begun, inner.1, inner.2, ended, recursing ++ returning, ran, ?_, List.append_assoc _ _ _⟩
  rw [List.append_nil]
  exact List.mem_append_right _ (List.mem_singleton_self _)

/-- What the node of a loop has become in some functions: one of them, and a step that runs it. The
step takes the value of a loop with a return, which the function then hands back unless it runs
again; otherwise the function hands back nothing. -/
structure RunsLoop (job : Job) (graph : BlockGraph) (forest : LoopForest)
    (functions : List Target.Function) (loop : Loop) (node : Tree) (function : Target.Function)
    (run : Step) : Prop where
  made : function ∈ functions
  named : function.name = job.loopName loop.head
  lowered : ∃ label body scope begun steps after ended, node = .loop label loop.entries body ∧
    function.params = job.loopParams scope ∧
    job.tree (scope.insideLoop (job.loopFrame scope label)) body begun =
      .ok ((steps, after), ended) ∧ function.body = job.closed after steps
  placed : ∃ scope begun rest after ended,
    job.tree scope node begun = .ok ((run :: rest, after), ended) ∧
      ∃ runner ∈ functions, StandsAt runner.body (run :: rest)
  valued : graph.IsValued (some loop) →
    run = Script.bindName ("__loop_res_" ++ loop.head.text) function.again ∧
      ∀ value ∈ function.returned,
        value = function.again ∨ job.HandsBack graph forest (some loop) value
  silent : ¬ graph.IsValued (some loop) →
    run = .stmt (.expr function.again) ∧
      ∀ value ∈ function.returned, value = function.again ∨ value = .unit

section Loops

variable {graph : BlockGraph} {forest : LoopForest} {around : Option Loop}

/-- A function returns what its code does, or nothing at its end. -/
theorem mayReturn_closed {after : Scope} (framed : graph.FramedBy around scope.loop)
    (loop : after.loop = scope.loop)
    (inside : ∀ value ∈ steps.returned, job.MayReturn graph forest around scope.loop value) :
    ∀ value ∈ Stmt.collectAll Stmt.ownReturns (job.closed after steps),
      job.MayReturn graph forest around scope.loop value := by
  rw [← loop] at framed inside ⊢
  unfold closed
  split
  · rwa [Script.returned_stmts]
  · rw [Script.returned_stmts, Script.returned_append]
    exact List.forall_mem_append.2
      ⟨inside, List.forall_mem_singleton.2 (mayReturn_emptyReturn framed)⟩

/-- The node of a loop in a marked tree becomes a function that returns as the loop does. -/
theorem HoldsNodes.runsLoop {recorded : CoordSet} {loop : Loop} {node : Tree} {region : Option Loop}
    (built : BlockGraph.ofBlocks job.method.entry job.method.blocks = .ok graph)
    (isOf : forest.IsOf graph) (holds : job.HoldsNodes later [node] here made)
    (into : ∀ code, here code → ∃ function ∈ made, StandsAt function.body code)
    (owns : forest.Owns region) (known : loop ∈ forest.all)
    (fits : GotoFree.Fits graph forest (Noted graph forest recorded) region node)
    (isHead : node.loopHead? = some loop.head) :
    ∃ function run, job.RunsLoop graph forest made loop node function run := by
  have checked := BlockGraph.checked_ofBlocks built
  obtain ⟨code, own, ⟨scope, begun, after, ended, ran, within, helpers⟩, among, place⟩ :=
    holds node (List.mem_singleton_self _)
  have standing := place.elim (into code) fun found => found
  cases fits with
  | jump | conditional | sequence | merge => cases isHead
  | @loop _ label body other part noted nested same heads whole fits =>
      have isOther := owns.mem_all (Loop.mem_flattenAll_of_mem nested)
      obtain rfl : other = loop :=
        isOf.eq_of_head isOther known (same.symm.trans (Option.some.inj isHead))
      obtain ⟨-, making, isMade, inner, steps, last, finished, rest, lowered, member, isCode⟩ :=
        @gives_loop job later scope label other.entries body begun _ ended ran within
      obtain rfl := List.append_cancel_left (helpers.symm.trans isMade)
      have isFrame : (job.loopFrame scope label).yieldsValue = true ↔
          graph.IsValued (some other) := by
        rw [loopFrame, noted.2.2, Option.getD_some]
        exact isValued_iff checked part whole
      have framed : graph.FramedBy (some other)
          (scope.insideLoop (job.loopFrame scope label)).loop := isFrame
      obtain ⟨loopAfter, inside⟩ := yields_mayReturn_tree built isOf fits
        (LoopForest.owns_some known) _ framed _ _ _ lowered
      have returns := mayReturn_closed framed loopAfter inside
      let function : Target.Function :=
        ⟨job.loopName label.head, job.loopParams scope, job.closed last steps⟩
      obtain ⟨run, isRun, ifValued, ifSilent⟩ := exists_runLoop (job.loopFrame scope label) label
      rw [isFrame, loopResult, same] at ifValued
      rw [isFrame] at ifSilent
      rw [isRun] at isCode
      dsimp only at isCode
      subst isCode
      refine ⟨function, run, among member, congrArg job.loopName same, ⟨label, body, scope, inner,
        steps, last, finished, rfl, rfl, lowered, rfl⟩, ⟨scope, begun, rest, after, ended, ran,
        standing⟩, fun valued => ⟨ifValued valued, fun value returned => ?_⟩,
        fun silent => ⟨ifSilent silent, fun value returned => ?_⟩⟩
      · cases returns value returned with
        | again isOwn =>
            cases isOwn
            exact .inl rfl
        | value _ handsBack => exact .inr handsBack
        | nothing silent => exact absurd valued silent
      · cases returns value returned with
        | again isOwn =>
            cases isOwn
            exact .inl rfl
        | value valued => exact absurd valued silent
        | nothing => exact .inr rfl

end Loops

end Job

/-- Loop functions return the right kind of value. Each loop of a method that is lowered has one
node, which has become a function and a step that runs it. If a block of the loop returns, the step
binds the value of the function, and the function hands back what its region hands back; if none
does, the step is a statement, and the function hands back nothing; either runs again by calling
itself with its own parameters. The method's own function hands back what its region does. -/
theorem Lower.method_loops {setting : Setting} {id : MethodId} {method : Method}
    {progress after : Progress} {code : MethodCode}
    (made : Lower.method setting id method progress = .ok (code, after)) :
    ∃ (job : Job) (graph : BlockGraph) (found : Structured) (tree : Tree),
      job.setting = setting ∧ job.id = id ∧ job.method = method ∧ job.function = code.name ∧
      method.checkedPlan = .ok job.plan ∧
      BlockGraph.ofBlocks method.entry method.blocks = .ok graph ∧
      graph.toStructured = .ok found ∧
      found.root.marked found.recursing = .ok (tree, job.flags) ∧
      (∀ loop ∈ found.forest.all, ∃ node function run,
        tree.nodes.filter (fun node => node.loopHead? = some loop.head) = [node] ∧
        job.RunsLoop graph found.forest code.functions loop node function run) ∧
      ∃ own, code.functions.getLast? = some own ∧ own.name = code.name ∧
        own.params = method.incomingNames ∧
        ∀ value ∈ own.returned, job.HandsBack graph found.forest none value := by
  obtain ⟨job, graph, found, tree, entry, scope, steps, inside, begun, rfl, rfl, rfl, named, isPlan,
    built, isStructured, isFound, marked, isMarked, introduces, -, -, none, -, lowered, functions,
    -⟩ := method_runs made
  have outside : scope.loop = Option.none := (Job.calls_introduceEntry introduces).1
  have framed : graph.FramedBy Option.none scope.loop := by
    rw [outside]
    trivial
  obtain ⟨-, more, helpers, holds⟩ :=
    @Job.gives_nodes_tree job after.agenda scope tree begun _ after lowered ⟨.refl _, nofun⟩
  rw [none, List.nil_append] at helpers
  rw [helpers] at functions
  let opening : Script :=
    (if job.hasControlCell then [Script.bindCell controlCell (.int 0)] else []) ++ entry
  have opens : opening.returned = [] := by
    rw [Script.returned_append, Job.returned_introduceEntry introduces]
    split <;> rfl
  obtain ⟨sameLoop, inTree⟩ := Job.yields_mayReturn_tree built isFound.isOf isMarked.fits
    LoopForest.owns_none scope framed _ _ _ lowered
  have whole : job.HoldsNodes after.agenda tree.nodes (fun _ => False) code.functions := by
    rw [functions]
    exact (Job.HoldsNodes.behind holds opening).snoc fun code stands => Job.standsAt_closed stands
  have inBody : ∀ value ∈ (opening ++ steps).returned,
      job.MayReturn graph found.forest Option.none scope.loop value := by
    rw [Script.returned_append, opens]
    exact inTree
  refine ⟨job, graph, found, tree, rfl, rfl, rfl, named, isPlan, built, isStructured, marked,
    fun loop known => ?_, _, by rw [functions, List.getLast?_concat], rfl, rfl,
    fun value returned => ?_⟩
  · obtain ⟨node, region, isHead, owns, fits, list⟩ :=
      isMarked.fits.exists_loopNode isFound.isOf isMarked.whole known
    have member : node ∈ tree.nodes := List.mem_of_mem_filter (list ▸ List.mem_singleton_self node)
    obtain ⟨function, run, runs⟩ := Job.HoldsNodes.runsLoop built isFound.isOf
      (List.forall_mem_singleton.2 (whole node member)) (fun _ none => none.elim) owns known fits
      isHead
    exact ⟨node, function, run, list, runs⟩
  · cases Job.mayReturn_closed framed sameLoop inBody value returned with
    | again isOwn => cases outside.symm.trans isOwn
    | value _ handsBack => exact handsBack
    | nothing silent => exact absurd trivial silent

/-- A method with a loop that is only left and a loop in which it returns. -/
def twiceLoopingMethod : Method where
  className := "A"
  name := "loop"
  isStatic := true
  params := []
  returnType := .int
  locals := [⟨"x", .int⟩]
  entry := ⟨0⟩
  blocks := [
    ⟨⟨0⟩, [.goto], [⟨1⟩]⟩,
    ⟨⟨1⟩, [.branch .nondet], [⟨1⟩, ⟨2⟩]⟩,
    ⟨⟨2⟩, [.branch .nondet], [⟨2⟩, ⟨3⟩]⟩,
    ⟨⟨3⟩, [.ret (some (.var "x"))], []⟩]
  plan := none

/-- A method with two loops binds the value of one of them. -/
theorem Lower.method_loops_twice : ∃ (code : MethodCode) (after : Progress) (job : Job)
    (graph : BlockGraph) (forest : LoopForest) (first second : Loop)
    (nodes : Tree × Tree) (functions : Target.Function × Target.Function),
    Lower.method ⟨⟨[], .empty, default⟩, ⟨.empty, .empty, .empty⟩, .functional⟩ default
      twiceLoopingMethod .start = .ok (code, after) ∧
    first.head = ⟨1⟩ ∧ second.head = ⟨2⟩ ∧
    job.RunsLoop graph forest code.functions first nodes.1 functions.1
      (.stmt (.expr functions.1.again)) ∧
    job.RunsLoop graph forest code.functions second nodes.2 functions.2
      (Script.bindName "__loop_res_2" functions.2.again) := by
  have lowers : (Lower.method ⟨⟨[], .empty, default⟩, ⟨.empty, .empty, .empty⟩, .functional⟩ default
      twiceLoopingMethod .start).toOption.isSome = true := by
    decide +kernel
  have loops : (BlockGraph.ofBlocks twiceLoopingMethod.entry
      twiceLoopingMethod.blocks).toOption.bind (fun graph => graph.toStructured.toOption.map
        fun found => found.forest.all.map fun loop =>
          (loop.head, loop.body.toList.any (graph.isReturning ·))) =
        some [(⟨1⟩, false), (⟨2⟩, true)] := by
    decide +kernel
  cases made : Lower.method ⟨⟨[], .empty, default⟩, ⟨.empty, .empty, .empty⟩, .functional⟩ default
      twiceLoopingMethod .start with
  | error failure => simp [made, Except.toOption] at lowers
  | ok answer =>
      obtain ⟨code, after⟩ := answer
      obtain ⟨job, graph, found, tree, -, -, -, -, -, built, isStructured, -, each, -⟩ :=
        Lower.method_loops made
      rw [built, Except.toOption, Option.bind_some, isStructured, Except.toOption, Option.map_some,
        Option.some.injEq] at loops
      obtain ⟨first, rest, all, isFirst, others⟩ := List.map_eq_cons_iff.1 loops
      obtain ⟨second, _, rfl, isSecond, -⟩ := List.map_eq_cons_iff.1 others
      obtain ⟨firstHead, firstSilent⟩ := Prod.mk.inj isFirst
      obtain ⟨secondHead, secondValued⟩ := Prod.mk.inj isSecond
      have valued {loop : Loop} : loop.body.toList.any (graph.isReturning ·) = true ↔
          graph.IsValued (some loop) :=
        List.any_eq_true
      obtain ⟨one, function, run, -, runs⟩ := each first (by simp [all])
      obtain ⟨other, another, next, -, goes⟩ := each second (by simp [all])
      obtain ⟨rfl, -⟩ := runs.silent fun isValued => by simp [valued.2 isValued] at firstSilent
      obtain ⟨rfl, -⟩ := goes.valued (valued.1 secondValued)
      rw [secondHead] at goes
      exact ⟨code, after, job, graph, found.forest, first, second, (one, other),
        (function, another), rfl, firstHead, secondHead, runs, goes⟩

end GotoFree
