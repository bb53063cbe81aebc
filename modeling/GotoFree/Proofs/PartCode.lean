import GotoFree.Proofs.Accepted
import GotoFree.Proofs.Limits
import GotoFree.Proofs.Nesting

/-!
# The code of scalar methods

The code of a marked tree comes out as a run of the tree does (`Job.CarriesOut`): it leaves the same
memory in the cells and the same coordinate in the control cell, falls through where the run does
and returns what the run returns. The function of a loop calls itself as often as the run enters the
loop, so both are compared for every depth of calls.
-/

namespace GotoFree

open LoopForest
open Target (Completion Ended Env Eval Script Stmt Stop Store Value World)

/-- The code of a function is left as the function is; where that hands back no value, the code may
hand back any. -/
inductive Cells.Leaves (cells : Cells) : Exit Memory Value → Value × Store → Prop where
  | ends {result : Option Value} {value : Value} {cell : Cell} {memory : Memory}
      (same : ∀ known ∈ result, value = known) :
      Cells.Leaves cells (.ends result cell memory) (value, cells.store cell memory)

/-- Control comes out of the code of a part as out of the part. -/
inductive Cells.Comes (cells : Cells) : Outcome Memory Value → Ended × Store → Prop where
  | falls {env : Env} {cell : Cell} {memory : Memory} (seen : cells.Seen env) :
      Cells.Comes cells (.falls cell memory) (.falls env, cells.store cell memory)
  | leaves {exit : Exit Memory Value} {value : Value} {store : Store}
      (leaves : cells.Leaves exit (value, store)) :
      Cells.Comes cells (.leaves exit) (.returns value, store)

/-- Code does what a part of a method does. -/
def Cells.Behaves (cells : Cells) (call : String → List Value → Eval Value) (world : World)
    (part : Cell → Memory → Option (Outcome Memory Value)) (code : Script) : Prop :=
  ∀ env cell memory, cells.Seen env →
    Matches cells.Comes (part cell memory) (code.exec call world env (cells.store cell memory))

/-- The call that runs the loop around a part again does what the body of the loop does. -/
inductive Cells.Rounds (cells : Cells) (call : String → List Value → Eval Value) (world : World)
    (enter : Tree → Cell → Memory → Option (Exit Memory Value)) :
    Option LoopFrame → Option Tree → Prop where
  | outside : Cells.Rounds cells call world enter none none
  | inside {frame : LoopFrame} {body : Tree}
      (again : ∀ env cell memory, cells.Seen env →
        Matches cells.Leaves (enter body cell memory)
          (frame.again.eval call world env (cells.store cell memory))) :
      Cells.Rounds cells call world enter (some frame) (some body)

section Behaving

variable {cells : Cells} {call : String → List Value → Eval Value} {world : World}
  {part rest : Cell → Memory → Option (Outcome Memory Value)} {front back code : Script}

/-- Goes on where control falls out of a part. -/
def Outcome.andThen {σ ρ : Type} (rest : Cell → σ → Option (Outcome σ ρ)) :
    Outcome σ ρ → Option (Outcome σ ρ)
  | falls cell state => rest cell state
  | leaves exit => some (.leaves exit)

namespace Cells.Behaves

/-- A part may be described in another way. -/
theorem congr {other : Cell → Memory → Option (Outcome Memory Value)}
    (does : cells.Behaves call world part code)
    (same : ∀ cell memory, other cell memory = part cell memory) :
    cells.Behaves call world other code := by
  intro env cell memory seen
  rw [same]
  exact does env cell memory seen

/-- Empty code falls through. -/
theorem falls : cells.Behaves call world (fun cell memory => some (.falls cell memory)) [] :=
  fun _ _ _ seen => .answer (.falls seen)

/-- Code in a row does what its parts do. -/
theorem append (first : cells.Behaves call world part front)
    (second : cells.Behaves call world rest back) :
    cells.Behaves call world (fun cell memory => (part cell memory).bind (Outcome.andThen rest))
      (front ++ back) := by
  intro env cell memory seen
  rw [Script.exec_append, bind_apply]
  refine (first env cell memory seen).bind fun outcome result comes => ?_
  cases comes with
  | falls seen => exact second _ _ _ seen
  | leaves leaves => exact .answer (.leaves leaves)

/-- Names that code has bound end with its statements. -/
theorem nest (does : cells.Behaves call world part code) :
    cells.Behaves call world part (Script.ofStmts code.stmts) := by
  intro env cell memory seen
  rw [Script.exec_ofStmts, Script.execAll_stmts, bind_assoc, bind_apply]
  refine (does env cell memory seen).andThen fun outcome result comes => ?_
  cases comes with
  | falls => exact ⟨_, rfl, .falls seen⟩
  | leaves leaves => exact ⟨_, rfl, .leaves leaves⟩

/-- A conditional goes on as the branch does that its condition selects. -/
theorem cond {test : Target.Expr} {thenBranch elseBranch : List Stmt}
    {holds : Cell → Memory → Bool} {other : Cell → Memory → Option (Outcome Memory Value)}
    (decides : ∀ env cell memory, cells.Seen env →
      test.eval call world env (cells.store cell memory) =
        .ok (.bool (holds cell memory), cells.store cell memory))
    (first : cells.Behaves call world part (Script.ofStmts thenBranch))
    (second : cells.Behaves call world other (Script.ofStmts elseBranch)) :
    cells.Behaves call world
      (fun cell memory => if holds cell memory then part cell memory else other cell memory)
      [.stmt (.cond test thenBranch elseBranch)] := by
  intro env cell memory seen
  rw [Script.exec_stmt, Stmt.exec, bind_assoc, bind_apply, decides env cell memory seen, ok_bind]
  have goesFirst := first env cell memory seen
  have goesSecond := second env cell memory seen
  rw [Script.exec_ofStmts] at goesFirst goesSecond
  dsimp only
  cases holds cell memory with
  | true => exact goesFirst
  | false => exact goesSecond

/-- Code that returns a value without more ado. -/
theorem ret {value : Target.Expr} {leave : Cell → Memory → Option (Exit Memory Value)}
    (gives : ∀ env cell memory, cells.Seen env → Matches cells.Leaves (leave cell memory)
      (value.eval call world env (cells.store cell memory))) :
    cells.Behaves call world (fun cell memory => (leave cell memory).map .leaves)
      [Script.ret value] := by
  intro env cell memory seen
  rw [Script.ret, Script.exec_stmt, Stmt.exec, bind_assoc, bind_apply]
  dsimp only
  rcases (gives env cell memory seen).cases with ⟨exit, ⟨answer, store⟩, left, made, leaves⟩ |
    ⟨left, stop, fails⟩
  · rw [left, made]
    exact .answer (.leaves leaves)
  · rw [left, fails]
    exact .stops

end Cells.Behaves

end Behaving

/-! ## Jumps and blocks -/

/-- The runner of a scalar method. -/
def Job.runner (job : Job) (graph : BlockGraph) (world : World) : Runner Memory Value :=
  ⟨job.method.entry, job.flags, graph.exec world⟩

/-- Code in the function of a loop, or of the method, does what a part of the tree does: at every
depth of calls, in a program with the functions that were made for the part. -/
def Job.CarriesOut (job : Job) (graph : BlockGraph) (world : World) (cells : Cells) (scope : Scope)
    (body : Option Tree) (made : List Target.Function)
    (part : (Tree → Cell → Memory → Option (Exit Memory Value)) → Cell → Memory →
      Option (Outcome Memory Value)) (code : Script) : Prop :=
  ∀ (program : Target.Program) (depth : Nat),
    (∀ function ∈ made, program.function? function.name = some function) →
    cells.Rounds (program.call world depth) world ((job.runner graph world).enter depth) scope.loop
      body →
    cells.Behaves (program.call world depth) world
      (part ((job.runner graph world).enter depth)) code

namespace Job

variable {job : Job} {graph : BlockGraph} {world : World} {cells : Cells} {scope : Scope}
  {body : Option Tree} {final : Progress}

/-- What is returned where control leaves without a value does not depend on anything. -/
theorem exists_emptyReturn : ∃ value, ∀ call world env store,
    (job.emptyReturn scope).eval call world env store = .ok (value, store) := by
  have ofType (type : Ty) : ∃ value, ∀ call world env store,
      type.default.eval call world env store = .ok (value, store) := by
    cases type <;> exact ⟨_, fun _ _ _ _ => rfl⟩
  unfold emptyReturn
  split
  · split
    · exact ofType _
    · exact ⟨.unit, fun _ _ _ _ => rfl⟩
  · exact ofType _

/-- A return without a value ends the function. -/
theorem behaves_emptyReturn {call : String → List Value → Eval Value} :
    cells.Behaves call world (fun cell memory => some (.leaves (.ends none cell memory)))
      [Script.ret (job.emptyReturn scope)] := by
  obtain ⟨value, evaluates⟩ := @exists_emptyReturn job scope
  refine @Cells.Behaves.ret cells call world _ (fun cell memory => some (.ends none cell memory)) ?_
  intro env cell memory seen
  rw [evaluates]
  exact .answer (.ends (by simp))

variable (celled : job.Celled cells scope) (order : cells.order = final.recorded.order)

include celled order

/-- The code of a jump leaves a block as the run does. -/
theorem Celled.answers_jump (coord : Coord) : Lower.Answers (·.UpTo final) (job.jump scope coord)
    (job.CarriesOut graph world cells scope body [] fun enter =>
      (job.runner graph world).leave
        (fun cell memory => body.bind fun body => enter body cell memory) coord) := by
  have same : (job.runner graph world).flags = job.flags := rfl
  unfold jump
  refine (celled.answers_record same order coord).andThen fun recording => ?_
  have recorded (records : ∀ call world env cell memory, cells.Seen env →
      Script.exec call world recording env (cells.store cell memory) =
        .ok (.falls env, cells.store ((job.runner graph world).record coord cell) memory))
      (call : String → List Value → Eval Value) : cells.Behaves call world
        (fun cell memory => some (.falls ((job.runner graph world).record coord cell) memory))
        recording := by
    intro env cell memory seen
    rw [records call world env cell memory seen]
    exact .answer (.falls seen)
  split
  · next recursing =>
    split
    · next frame isLoop =>
      refine .pure fun records program depth resolves rounds => ?_
      rw [isLoop] at rounds
      cases rounds with
      | inside again =>
          refine ((recorded records _).append (.ret again)).congr fun cell memory => ?_
          exact if_pos recursing
    · exact .reject
  · next onward =>
    split
    · next leaving =>
      refine .pure fun records program depth resolves rounds => ?_
      refine ((recorded records _).append behaves_emptyReturn).congr fun cell memory => ?_
      exact (if_neg onward).trans (if_pos leaving)
    · next inside =>
      refine .pure fun records program depth resolves rounds => (recorded records _).congr ?_
      exact fun cell memory => (if_neg onward).trans (if_neg inside)

section Blocks

variable {call : String → List Value → Eval Value} {env : Env} {lowered : Lowered}

omit celled order

/-- A block that does not branch is followed by other code. -/
theorem Lowered.exec_steps (straight : lowered.condition = none) {code : Script} :
    Script.exec call world (lowered.steps ++ code) env =
      lowered.exec call world env >>= Arrival.goOn fun _ env =>
        Script.exec call world code env := by
  simp only [Lowered.exec, Script.exec_append, bind_assoc, straight]
  congr 1
  funext ended
  cases ended with
  | falls env => simp only [Ended.andThen, pure_bind, Arrival.goOn]
  | returns value => simp only [Ended.andThen, pure_bind, Arrival.goOn]

/-- A block that branches is followed by the code of its arms. -/
theorem Lowered.exec_cond {test : Target.Expr} (branches : lowered.condition = some test)
    {thenBranch elseBranch : List Stmt} :
    Script.exec call world (lowered.steps ++ [.stmt (.cond test thenBranch elseBranch)]) env =
      lowered.exec call world env >>= Arrival.goOn fun branch env =>
        Script.exec call world
          (Script.ofStmts (if branch = .taken then thenBranch else elseBranch)) env := by
  simp only [Lowered.exec, Script.exec_append, bind_assoc, branches]
  congr 1
  funext ended
  cases ended with
  | falls env =>
      simp only [Ended.andThen, Script.exec_stmt, Stmt.exec, bind_assoc]
      congr 1
      funext truth
      cases truth with
      | bool value =>
          cases value <;> simp only [pure_bind, Arrival.goOn, Script.exec_ofStmts, reduceCtorEq,
            if_true, if_false]
      | _ => rfl
  | returns value => simp only [Ended.andThen, pure_bind, Arrival.goOn]

/-- What a part does that starts with a block. -/
def goOn (record : Cell → Cell) (rest : Branch → Cell → Memory → Option (Outcome Memory Value))
    (cell : Cell) : Event Memory Value → Option (Outcome Memory Value)
  | .along branch after => rest branch cell after
  | .returns value after => some (.leaves (.ends (some value) (record cell) after))
  | .stops after => some (.leaves (.stops after))

/-- Code that starts with the code of a block does what a part does that starts with the block. -/
theorem behaves_block {id : BlockId} {record : Cell → Cell} {code : Script}
    {goes : Branch → Env → Eval Ended}
    {rest : Branch → Cell → Memory → Option (Outcome Memory Value)}
    (performs : cells.Performs record (fun world => graph.exec world id) lowered)
    (starts : ∀ env, code.exec call world env =
      lowered.exec call world env >>= Arrival.goOn goes)
    (does : ∀ branch env cell memory, cells.Seen env →
      Matches cells.Comes (rest branch cell memory) (goes branch env (cells.store cell memory))) :
    cells.Behaves call world
      (fun cell memory => (graph.exec world id memory).bind (goOn record rest cell)) code := by
  intro env cell memory seen
  rw [starts, bind_apply]
  refine (performs call world env cell memory seen).bind fun event arrival meets => ?_
  cases meets with
  | along seen => exact does _ _ _ _ seen
  | returns => exact .answer (.leaves (.ends (by simp)))

end Blocks

/-- What the code of a part of the tree does, and the functions that are made for it: one for each
of some loop nodes. -/
structure Covers (job : Job) (graph : BlockGraph) (world : World) (cells : Cells) (scope : Scope)
    (body : Option Tree) (loops : List (BlockId × Option BlockId))
    (part : (Tree → Cell → Memory → Option (Exit Memory Value)) → Cell → Memory →
      Option (Outcome Memory Value)) (code : Script) (made : List Target.Function) : Prop where
  names : (made.map Target.Function.name).Perm
    (loops.map fun entry => job.function ++ "__loop_" ++ entry.1.text)
  carriesOut : job.CarriesOut graph world cells scope body made part code

/-- A block that does not branch is lowered to code that does what it does. -/
theorem Celled.gives_jump (isScalar : job.IsScalar graph) {label : Label} {coord : Coord}
    {around : Option BlockId} (known : label.head ∈ graph.ids)
    (straight : graph.isBranching label.head = false) :
    Lower.Gives (·.UpTo final) (job.tree scope (.jump label coord)) fun answer made =>
      job.Covers graph world cells scope body ((Tree.jump label coord).nestings around)
        (fun enter => (Tree.jump label coord).run (job.runner graph world) enter body) answer.1
        made := by
  have same : (job.runner graph world).flags = job.flags := rfl
  rw [Job.tree]
  refine Lower.Answers.bind_known (celled.succeeds_block isScalar known)
    (celled.answers_block same order isScalar known) ?_
  rintro lowered ⟨sameScope, condition, returned⟩
  have noCondition : lowered.condition = none := by simpa [straight] using condition
  split
  · next returns =>
    refine .pure fun performs => ⟨.refl _, fun program depth _ _ => ?_⟩
    have starts (env : Env) : Script.exec (program.call world depth) world lowered.steps env =
        lowered.exec (program.call world depth) world env >>=
          Arrival.goOn fun _ env => Script.exec (program.call world depth) world [] env := by
      rw [← Lowered.exec_steps noCondition, List.append_nil]
    have ends := @Cells.Behaves.falls cells (program.call world depth) world
    refine (behaves_block performs starts fun _ => ends).congr fun cell memory => ?_
    rw [Tree.run]
    cases does : graph.exec world label.head memory with
    | none => simp [runner, does]
    | some event =>
        cases event with
        | along branch after =>
            -- A block that ends in a return is not left along an edge.
            obtain ⟨target, edge⟩ := exists_edge_of_exec isScalar.built does
            have none := not_isReturning_of_edge (BlockGraph.checked_ofBlocks isScalar.built) edge
            simp [returned returns] at none
        | returns => simp [runner, does, goOn]
        | stops => simp [runner, does, goOn]
  · rw [sameScope]
    refine (@Celled.answers_jump job graph world cells scope body final celled order coord).bind
      fun jump => ?_
    refine .pure fun jumps performs => ⟨.refl _, fun program depth resolves rounds => ?_⟩
    have does := jumps program depth resolves rounds
    refine (behaves_block performs (fun env => Lowered.exec_steps noCondition)
      fun _ => does).congr fun cell memory => ?_
    dsimp only
    rw [Tree.run]
    cases does : graph.exec world label.head memory with
    | none => simp [runner, does]
    | some event => cases event <;> simp [runner, does, goOn]

/-- An arm is lowered to statements that do what the arm does. -/
theorem Celled.gives_arm {arm : Arm} {around : Option BlockId}
    (nested : ∀ tree, arm = .nested tree →
      Lower.Gives (·.UpTo final) (job.tree scope tree) fun answer made =>
        job.Covers graph world cells scope body (tree.nestings around)
          (fun enter => tree.run (job.runner graph world) enter body) answer.1 made) :
    Lower.Gives (·.UpTo final) (job.arm scope arm) fun stmts made =>
      job.Covers graph world cells scope body (Tree.nestingsOfArm around arm)
        (fun enter => Tree.runArm (job.runner graph world) enter body arm) (Script.ofStmts stmts)
        made := by
  cases arm with
  | jump coord jumps =>
      rw [Job.arm]
      refine (@Celled.answers_jump job graph world cells scope body final celled order coord).bind
        fun jump => ?_
      refine .pure fun jumps => ⟨.refl _, fun program depth resolves rounds => ?_⟩
      exact (jumps program depth resolves rounds).nest.congr fun _ _ => by rw [Tree.runArm]
  | nested tree =>
      rw [Job.arm]
      refine (nested tree rfl).bind fun answer => .pure fun made covers => ?_
      rw [List.append_nil]
      refine ⟨covers.names, fun program depth resolves rounds => ?_⟩
      exact (covers.carriesOut program depth resolves rounds).nest.congr fun _ _ => by
        rw [Tree.runArm]

/-- A conditional is lowered to code that does what it does. -/
theorem Celled.gives_conditional (isScalar : job.IsScalar graph) {label : Label}
    {taken notTaken : Arm} {around : Option BlockId} (known : label.head ∈ graph.ids)
    (branching : graph.isBranching label.head = true)
    (takenGives : Lower.Gives (·.UpTo final) (job.arm scope taken) fun stmts made =>
      job.Covers graph world cells scope body (Tree.nestingsOfArm around taken)
        (fun enter => Tree.runArm (job.runner graph world) enter body taken) (Script.ofStmts stmts)
        made)
    (notTakenGives : Lower.Gives (·.UpTo final) (job.arm scope notTaken) fun stmts made =>
      job.Covers graph world cells scope body (Tree.nestingsOfArm around notTaken)
        (fun enter => Tree.runArm (job.runner graph world) enter body notTaken)
        (Script.ofStmts stmts) made) :
    Lower.Gives (·.UpTo final) (job.tree scope (.conditional label taken notTaken))
      fun answer made =>
      job.Covers graph world cells scope body
        ((Tree.conditional label taken notTaken).nestings around)
        (fun enter =>
          (Tree.conditional label taken notTaken).run (job.runner graph world) enter body)
        answer.1 made := by
  have same : (job.runner graph world).flags = job.flags := rfl
  rw [Job.tree]
  refine Lower.Answers.bind_known (celled.succeeds_block isScalar known)
    (celled.answers_block same order isScalar known) ?_
  rintro lowered ⟨sameScope, condition, -⟩
  obtain ⟨test, isTest⟩ := Option.isSome_iff_exists.1 (condition.trans branching)
  simp only [isTest, sameScope]
  refine takenGives.bind fun thenBranch => notTakenGives.bind fun elseBranch => ?_
  refine .pure fun madeElse second madeThen first performs => ?_
  rw [List.append_nil]
  refine ⟨?_, fun program depth resolves rounds => ?_⟩
  · rw [Tree.nestings, List.map_append, List.map_append]
    exact first.names.append second.names
  · have goesThen := first.carriesOut program depth
      (fun function member => resolves function (List.mem_append_left _ member)) rounds
    have goesElse := second.carriesOut program depth
      (fun function member => resolves function (List.mem_append_right _ member)) rounds
    have goes (branch : Branch) : cells.Behaves (program.call world depth) world
        (Tree.runArm (job.runner graph world) ((job.runner graph world).enter depth) body
          (if branch = .taken then taken else notTaken))
        (Script.ofStmts (if branch = .taken then thenBranch else elseBranch)) := by
      split
      · exact goesThen
      · exact goesElse
    refine (behaves_block performs (fun env => Lowered.exec_cond isTest) goes).congr
      fun cell memory => ?_
    have serves := @serves_exec world _ _ _ isScalar.built
    rw [Tree.run]
    cases does : graph.exec world label.head memory with
    | none => simp [runner, does]
    | some event =>
        cases event with
        | along branch after =>
            have isArm : branch ≠ .exit := by
              intro same
              have straight := (serves.exit_iff does).1 same
              simp [branching] at straight
            cases branch with
            | exit => exact absurd rfl isArm
            | taken => simp [runner, does, goOn]
            | notTaken => simp [runner, does, goOn]
        | returns value after =>
            have checked := BlockGraph.checked_ofBlocks isScalar.built
            obtain ⟨_, _, two⟩ := checked.outEdges_of_isBranching branching
            cases two.symm.trans (checked.outEdges_of_isReturning (serves.returning does))
        | stops => simp [runner, does, goOn]

/-! ## Gates and sequences -/

omit celled order in
/-- A test of the control cell holds as a condition on the coordinate recorded last does. -/
def Tests (cells : Cells) (holds : Cell → Bool) (test : Target.Expr) : Prop :=
  ∀ call world env cell memory, cells.Seen env →
    test.eval call world env (cells.store cell memory) =
      .ok (.bool (holds cell), cells.store cell memory)

omit order in
/-- A test on flags holds if the flag in the cell is one of them. -/
theorem Celled.answers_flagTest (has : job.hasControlCell = true) (flags : List Int) :
    Lower.Answers (·.UpTo final) (flagTest flags)
      (Tests cells fun cell => cells.flag cell ∈ flags) := by
  unfold flagTest
  split
  · next test isTest =>
    refine .pure fun call world env cell memory seen => ?_
    exact seen.eval_anyOf? (celled.control.trans has) isTest
  · exact .throw

omit celled in
/-- The flags of some coordinates are those of the table. -/
theorem answers_flags (coords : CoordSet) :
    Lower.Answers (·.UpTo final) (coords.toList.mapM Lower.flag) (cells.Flagged coords) := by
  refine (Lower.Answers.mapM fun coord _ => Lower.Answers.flag).imp fun flags numbered => ?_
  rw [Cells.Flagged, order]
  exact numbered

/-- The test of a gate holds if one of its coordinates was recorded last. -/
theorem Celled.answers_gate (has : job.hasControlCell = true) (coords : CoordSet) :
    Lower.Answers (·.UpTo final) (gate coords) (Tests cells fun cell => coords.passes cell) := by
  refine (answers_flags order coords).andThen fun flags => ?_
  refine (celled.answers_flagTest has flags).imp fun test tests flagged => ?_
  intro call world env cell memory seen
  rw [tests call world env cell memory seen]
  simp [flagged.mem_iff]

omit celled order in
/-- The code of a node with a gate does what the node does if the gate lets control in. -/
theorem behaves_gated {call : String → List Value → Eval Value} {holds : Cell → Bool}
    {test : Target.Expr} (tests : Tests cells holds test)
    {part : Cell → Memory → Option (Outcome Memory Value)} {stmts : List Stmt} :
    cells.Behaves call world part (Script.ofStmts stmts) →
    cells.Behaves call world
      (fun cell memory => if holds cell then part cell memory else some (.falls cell memory))
      (match stmts with
        | [] => []
        | stmts => [.stmt (.onlyIf test stmts)]) := by
  intro does
  cases stmts with
  | nil =>
      intro env cell memory seen
      dsimp only
      split
      · exact does env cell memory seen
      · exact Cells.Behaves.falls env cell memory seen
  | cons first rest =>
      exact .cond (fun env cell memory seen => tests call world env cell memory seen) does .falls

/-- The elements of a sequence are lowered to code that does what they do. -/
theorem Celled.gives_elems {elems : List Tree} {around : Option BlockId}
    (gates : ∀ tree ∈ elems, ∀ coords, tree.notes.gateOn = some coords →
      job.hasControlCell = true)
    (succeeds : ∀ tree ∈ elems,
      Lower.Succeeds (job.tree scope tree) fun answer => answer.2 = scope)
    (trees : ∀ tree ∈ elems, Lower.Gives (·.UpTo final) (job.tree scope tree) fun answer made =>
      job.Covers graph world cells scope body (tree.nestings around)
        (fun enter => tree.run (job.runner graph world) enter body) answer.1 made) :
    Lower.Gives (·.UpTo final) (job.elems scope elems) fun answer made =>
      job.Covers graph world cells scope body (Tree.nestingsOfAll around elems)
        (fun enter => Tree.runElems (job.runner graph world) enter body elems) answer.1 made := by
  induction elems with
  | nil =>
      refine .pure ⟨.refl _, fun program depth resolves rounds => ?_⟩
      exact Cells.Behaves.falls.congr fun _ _ => by rw [Tree.runElems]
  | cons tree rest ih =>
      have later := ih (fun other member => gates other (List.mem_cons_of_mem _ member))
        (fun other member => succeeds other (List.mem_cons_of_mem _ member))
        fun other member => trees other (List.mem_cons_of_mem _ member)
      -- The code of the element is followed by that of the elements after it.
      have both {own : Script} {others : Script × Scope} {first second : List Target.Function}
          (names : (first.map Target.Function.name).Perm
            ((tree.nestings around).map fun entry => job.function ++ "__loop_" ++ entry.1.text))
          (one : job.CarriesOut graph world cells scope body first (fun enter cell memory =>
            if tree.isOpen cell then tree.run (job.runner graph world) enter body cell memory
            else some (.falls cell memory)) own)
          (two : job.Covers graph world cells scope body (Tree.nestingsOfAll around rest)
            (fun enter => Tree.runElems (job.runner graph world) enter body rest) others.1 second) :
          job.Covers graph world cells scope body (Tree.nestingsOfAll around (tree :: rest))
            (fun enter => Tree.runElems (job.runner graph world) enter body (tree :: rest))
            (own ++ others.1) (first ++ second) := by
        refine ⟨?_, fun program depth resolves rounds => ?_⟩
        · rw [Tree.nestingsOfAll, List.map_append, List.map_append]
          exact names.append two.names
        · refine ((one program depth (fun function member =>
            resolves function (List.mem_append_left _ member)) rounds).append
            (two.carriesOut program depth (fun function member =>
              resolves function (List.mem_append_right _ member)) rounds)).congr
            fun cell memory => ?_
          rw [Tree.runElems]
          dsimp only
          by_cases isOpen : tree.isOpen cell = true
          · rw [if_pos isOpen, if_pos isOpen]
            cases tree.run (job.runner graph world) ((job.runner graph world).enter depth) body cell
              memory with
            | none => rfl
            | some outcome => cases outcome <;> rfl
          · rw [if_neg isOpen, if_neg isOpen]
            rfl
      unfold Job.elems
      split
      · next coords gate =>
        have isOpen (cell : Cell) : tree.isOpen cell = CoordSet.passes coords cell := by
          rw [Tree.isOpen, gate, Option.all_some]
        refine (celled.answers_gate order (gates tree (by simp) coords gate) coords).bind
          fun test => ?_
        refine (trees tree (by simp)).bind fun answer => later.bind fun others => .pure ?_
        intro second two first one tests
        rw [List.append_nil]
        refine both one.names (fun program depth resolves rounds => ?_) two
        refine (behaves_gated tests (one.carriesOut program depth resolves rounds).nest).congr
          fun cell memory => ?_
        dsimp only
        rw [isOpen]
      · next free =>
        have isOpen (cell : Cell) : tree.isOpen cell = true := by
          rw [Tree.isOpen, free, Option.all_none]
        refine Lower.Gives.bind_known (succeeds tree (by simp)) (trees tree (by simp)) ?_
        rintro ⟨own, _⟩ rfl
        refine later.bind fun others => .pure fun second two first one => ?_
        rw [List.append_nil]
        refine both one.names (fun program depth resolves rounds => ?_) two
        exact (one.carriesOut program depth resolves rounds).congr fun cell _ =>
          if_pos (isOpen cell)

end Job

end GotoFree
