import GotoFree.Proofs.PartCode

/-!
# The code of loops

The function of a loop does what the body of the loop does, at every depth of calls: where control
goes round, it calls itself with the cells that it was called with (`Celled.rounds`). The code
behind the call reads the control cell, and either runs the loop around it again, or leaves the
function around it, with the value of the loop after a return, or falls through.
-/

namespace GotoFree

open LoopForest
open Target (Completion Ended Env Eval Script Stmt Stop Store Value World)

/-! ## Calls with variables -/

section Calls

variable {call : String → List Value → Eval Value} {world : World} {env : Env} {store : Store}
  {value : String → Value}

/-- Variables evaluate to what their names stand for. -/
theorem evalAll_var {names : List String}
    (named : ∀ name ∈ names, env.lookup name = some (value name)) :
    Target.Expr.evalAll call world env (names.map .var) store = .ok (names.map value, store) := by
  refine evalAll_vars (List.length_map _).symm fun entry member => ?_
  obtain ⟨index, bound, rfl⟩ := List.mem_iff_getElem.1 member
  simpa using named _ (List.getElem_mem _)

/-- Names that are bound by a function of them are looked up so. -/
theorem lookup_zip_map {names : List String} {name : String} (member : name ∈ names) :
    (names.zip (names.map value)).lookup name = some (value name) := by
  induction names with
  | nil => cases member
  | cons first rest ih =>
      by_cases same : name = first
      · simp [same]
      · rw [List.map_cons, List.zip_cons_cons, lookup_cons_of_ne same]
        exact ih ((List.mem_cons.1 member).resolve_left same)

end Calls

namespace Cells

variable {cells : Cells} {env : Env}

/-- The cell that a name stands for. -/
def valueOf (cells : Cells) (name : String) : Value :=
  .cell (if name = controlCell then 0 else cells.address name)

/-- Names that stand for the cells include those of all locals. -/
theorem seen_iff : cells.Seen env ↔
    ∀ name ∈ (if cells.hasControl then [controlCell] else []) ++ cells.names,
      env.lookup name = some (cells.valueOf name) := by
  have other {name : String} (member : name ∈ cells.names) : name ≠ controlCell := by
    rintro rfl
    exact cells.free _ member isReserved_controlCell
  constructor
  · intro seen name member
    rcases List.mem_append.1 member with control | member
    · split at control
      · next has =>
        obtain rfl := List.mem_singleton.1 control
        rw [seen.control has, valueOf, if_pos rfl]
      · cases control
    · rw [seen.locals name member, valueOf, if_neg (other member)]
  · intro named
    refine ⟨fun has => ?_, fun name member => ?_⟩
    · rw [named controlCell (by simp [has]), valueOf, if_pos rfl]
    · rw [named name (List.mem_append_right _ member), valueOf, if_neg (other member)]

end Cells

/-! ## Functions -/

namespace Job

variable {job : Job} {graph : BlockGraph} {world : World} {cells : Cells} {scope : Scope}
  {body : Option Tree} {final : Progress}

/-- Statements that always leave the function are left by a return. -/
theorem matches_stmts {call : String → List Value → Eval Value} {code : Script}
    {leave : Cell → Memory → Option (Exit Memory Value)}
    (does : cells.Behaves call world (fun cell memory => (leave cell memory).map .leaves) code)
    {env : Env} (seen : cells.Seen env) {cell : Cell} {memory : Memory} :
    Matches
      (fun exit result => ∃ value, result.1 = .returns value ∧ cells.Leaves exit (value, result.2))
      (leave cell memory) (Stmt.execAll call world env code.stmts (cells.store cell memory)) := by
  rw [Script.execAll_stmts, bind_apply]
  rcases (does env cell memory seen).cases with ⟨out, ⟨ended, store⟩, ran, made, comes⟩ |
    ⟨ran, stop, fails⟩
  · obtain ⟨exit, left, rfl⟩ := Option.map_eq_some_iff.1 ran
    rw [left, made]
    cases comes with
    | leaves leaves => exact .answer ⟨_, rfl, leaves⟩
  · rw [Option.map_eq_none_iff.1 ran, fails]
    exact .stops

/-- The body of a function does what a part of the tree does, and leaves the function where control
falls out of the part. -/
theorem matches_closed {call : String → List Value → Eval Value} {code : Script}
    {part : Cell → Memory → Option (Outcome Memory Value)}
    (does : cells.Behaves call world part code) {env : Env} (seen : cells.Seen env) {cell : Cell}
    {memory : Memory} :
    Matches
      (fun exit result => ∃ value, result.1 = .returns value ∧ cells.Leaves exit (value, result.2))
      ((part cell memory).map Outcome.close)
      (Stmt.execAll call world env (job.closed scope code) (cells.store cell memory)) := by
  unfold closed
  split
  · next terminal =>
    refine @matches_stmts world cells call code (fun cell memory =>
      (part cell memory).map Outcome.close) (fun env cell memory seen => ?_) env seen cell memory
    dsimp only
    rcases (does env cell memory seen).cases with ⟨out, ⟨ended, store⟩, ran, made, comes⟩ |
      ⟨ran, stop, fails⟩
    · obtain ⟨value, rfl⟩ := Script.exec_terminal terminal made
      rw [ran, made]
      cases comes with
      | leaves leaves => exact .answer (.leaves leaves)
    · rw [ran, fails]
      exact .stops
  · refine @matches_stmts world cells call _ (fun cell memory =>
      (part cell memory).map Outcome.close) ?_ env seen cell memory
    refine (does.append (@behaves_emptyReturn job world cells scope call)).congr
      fun cell memory => ?_
    cases part cell memory with
    | none => rfl
    | some outcome => cases outcome <;> rfl

variable (celled : job.Celled cells scope)

include celled

/-- What the function of a loop is called with. -/
theorem Celled.loopParams (incoming : job.method.incoming = []) :
    job.loopParams scope = (if cells.hasControl then [controlCell] else []) ++ cells.names := by
  simp [Job.loopParams, Method.incomingNames, incoming, celled.control, celled.locals]

/-- The function of a loop does what the body of the loop does, at every depth of calls. -/
theorem Celled.rounds (incoming : job.method.incoming = []) {label : Label} {body : Tree}
    {code : Script} {made : List Target.Function}
    (does : job.CarriesOut graph world cells (scope.insideLoop (job.loopFrame scope label))
      (some body) made (fun enter => body.run (job.runner graph world) enter (some body)) code)
    {program : Target.Program} (resolves : ∀ function ∈ made,
      program.function? function.name = some function)
    (own : program.function? (job.loopFrame scope label).name =
      some ⟨(job.loopFrame scope label).name, (job.loopFrame scope label).params,
        job.closed (scope.insideLoop (job.loopFrame scope label)) code⟩) (depth : Nat) :
    cells.Rounds (program.call world depth) world ((job.runner graph world).enter depth)
      (some (job.loopFrame scope label)) (some body) := by
  have params := celled.loopParams incoming
  -- The arguments of the call stand for the same cells in the function.
  have arguments {call : String → List Value → Eval Value} {env : Env} {store : Store}
      (seen : cells.Seen env) : (job.loopFrame scope label).again.eval call world env store =
        call (job.loopFrame scope label).name ((job.loopParams scope).map cells.valueOf) store := by
    rw [LoopFrame.again, Target.Expr.eval, bind_apply]
    rw [Cells.seen_iff, ← params] at seen
    rw [show (job.loopFrame scope label).params = job.loopParams scope from rfl, evalAll_var seen,
      ok_bind]
  have inside :
      cells.Seen ((job.loopParams scope).zip ((job.loopParams scope).map cells.valueOf)) :=
    Cells.seen_iff.2 fun name member => lookup_zip_map (params ▸ member)
  induction depth with
  | zero =>
      refine .inside fun env cell memory seen => ?_
      rw [arguments seen]
      exact .stops
  | succ depth ih =>
      refine .inside fun env cell memory seen => ?_
      rw [arguments seen, Runner.enter, Target.Program.call, own, expect_some, pure_bind,
        if_pos (by simp [loopFrame]), bind_apply]
      refine (matches_closed (does program depth resolves ih) inside).andThen ?_
      rintro exit ⟨completion, store⟩ ⟨value, rfl, leaves⟩
      exact ⟨_, rfl, leaves⟩

/-! ## After a loop -/

omit celled in
/-- No cell passes without a coordinate. -/
theorem not_passes_of_isEmpty {coords : CoordSet} (empty : coords.isEmpty = true) {cell : Cell} :
    coords.passes cell = false := by
  cases cell with
  | none => rfl
  | some coord =>
      rw [CoordSet.passes, decide_eq_false_iff_not]
      exact SortedSet.isEmpty_iff.1 empty coord

omit celled in
/-- Code that returns a value if one of some coordinates was recorded last. -/
def ReturnsIf (cells : Cells) (coords : CoordSet) (value : Target.Expr) (code : Script) : Prop :=
  ∀ call world env cell memory, cells.Seen env →
    code.exec call world env (cells.store cell memory) =
      if coords.passes cell then
        (value.eval call world env >>= fun value => pure (.returns value)) (cells.store cell memory)
      else .ok (.falls env, cells.store cell memory)

variable (order : cells.order = final.recorded.order)

include order

/-- A conditional return returns if the cell holds one of its flags. -/
theorem Celled.answers_returnIf {coords : CoordSet} {value : Target.Expr}
    (recorded : ∀ coord ∈ coords, coord ∈ job.flags.recorded) :
    Lower.Answers (·.UpTo final) (returnIf coords value) (ReturnsIf cells coords value) := by
  unfold returnIf
  split
  · next empty =>
    refine .pure fun call world env cell memory seen => ?_
    rw [not_passes_of_isEmpty empty]
    rfl
  · next some =>
    obtain ⟨coord, member⟩ : ∃ coord, coord ∈ coords := by
      simpa [SortedSet.isEmpty_iff] using some
    have has := hasControlCell_of_recorded (recorded coord member)
    refine (celled.answers_gate order has coords).andThen fun test => .pure ?_
    intro tests call world env cell memory seen
    rw [Script.exec_stmt, Stmt.onlyIf, Stmt.exec, bind_assoc, bind_apply,
      tests call world env cell memory seen, ok_bind]
    dsimp only
    cases coords.passes cell with
    | false => rfl
    | true =>
        simp only [if_true, Stmt.execAll, Stmt.exec, bind_assoc, pure_bind]
        rfl

/-- Behind a loop, code runs the loop around it again if the coordinate recorded last asks for it.
-/
theorem Celled.answers_recurseAfter {label : Label}
    (recorded : ∀ coord ∈ label.notes.recurseOn.getD .empty, coord ∈ job.flags.recorded) :
    Lower.Answers (·.UpTo final) (job.recurseAfter scope label) fun code =>
      ∀ call world enter body env cell memory, cells.Rounds call world enter scope.loop body →
        cells.Seen env →
        if (label.notes.recurseOn.getD .empty).passes cell then
          Matches cells.Comes ((body.bind fun body => enter body cell memory).map .leaves)
            (code.exec call world env (cells.store cell memory))
        else code.exec call world env (cells.store cell memory) =
          .ok (.falls env, cells.store cell memory) := by
  unfold recurseAfter
  dsimp only
  split
  · next empty =>
    refine .pure fun call world enter body env cell memory rounds seen => ?_
    rw [not_passes_of_isEmpty empty]
    rfl
  · split
    · next frame isLoop =>
      refine (celled.answers_returnIf order recorded).imp fun code returns => ?_
      intro call world enter body env cell memory rounds seen
      rw [returns call world env cell memory seen]
      split
      · rw [isLoop] at rounds
        cases rounds with
        | inside again =>
            rw [bind_apply, Option.bind_some, Option.map_eq_bind]
            exact (again env cell memory seen).bind fun exit result leaves =>
              .answer (.leaves leaves)
      · rfl
    · exact .reject

/-- Behind a loop, code leaves the function around it if the coordinate recorded last asks for it:
with the value of the loop after a return. -/
theorem Celled.answers_returnAfter {label : Label}
    (recorded : ∀ coord ∈ label.notes.returnOn.getD .empty, coord ∈ job.flags.recorded) :
    Lower.Answers (·.UpTo final) (job.returnAfter scope label) fun code =>
      ∀ call world env cell memory, cells.Seen env → ∀ result value,
        (∀ known ∈ result, value = known) →
        (CoordSet.passes label.jumps.returns cell → env.lookup (loopResult label) = some value) →
        Matches cells.Comes
          (if (label.notes.returnOn.getD .empty).passes cell then
            some (.leaves (.ends (if CoordSet.passes label.jumps.returns cell then result else none)
              cell memory))
          else some (.falls cell memory))
          (code.exec call world env (cells.store cell memory)) := by
  obtain ⟨nothing, evaluates⟩ := @exists_emptyReturn job scope
  unfold returnAfter
  refine (celled.answers_returnIf order fun coord member =>
    recorded coord (SortedSet.mem_filter.1 member).1).andThen fun returning => ?_
  refine (celled.answers_returnIf order fun coord member =>
    recorded coord (SortedSet.mem_filter.1 member).1).andThen fun leaving => .pure ?_
  intro leaves returns call world env cell memory seen result value same named
  rw [Script.exec_append, bind_apply, returns call world env cell memory seen]
  cases cell with
  | none =>
      have after := leaves call world env none memory seen
      simp only [CoordSet.passes, Bool.false_eq_true, if_false] at after ⊢
      rw [ok_bind, Ended.andThen, after]
      exact .answer (.falls seen)
  | some coord =>
      have after := leaves call world env (some coord) memory seen
      simp only [CoordSet.passes, SortedSet.mem_filter, decide_eq_true_eq] at after named ⊢
      by_cases out : coord ∈ label.notes.returnOn.getD .empty
      · by_cases isReturn : coord ∈ label.jumps.returns
        · rw [if_pos out, if_pos isReturn, if_pos ⟨out, isReturn⟩, bind_apply, Target.Expr.eval,
            named isReturn]
          exact .answer (.leaves (.ends same))
        · rw [if_pos out, if_neg isReturn, if_neg fun both => isReturn both.2, ok_bind,
            Ended.andThen, after, if_pos ⟨out, isReturn⟩, bind_apply, evaluates]
          exact .answer (.leaves (.ends (by simp)))
      · rw [if_neg out, if_neg fun both => out both.1, ok_bind, Ended.andThen, after,
          if_neg fun both => out both.1]
        exact .answer (.falls seen)

omit celled order in
/-- The code behind the call of a loop's function knows its value, if it has one. -/
theorem exec_runLoop {call : String → List Value → Eval Value} {frame : LoopFrame} {label : Label}
    {code : Script} {env : Env} :
    Script.exec call world (runLoop frame label ++ code) env =
      frame.again.eval call world env >>= fun value =>
        Script.exec call world code
          (if frame.yieldsValue then (loopResult label, value) :: env else env) := by
  unfold runLoop
  split
  · simp only [Script.bindName, List.singleton_append, Script.exec, Target.Pattern.bound, pure_bind]
  · simp only [List.singleton_append, Script.exec, Stmt.exec, bind_assoc, pure_bind]

omit celled order in
/-- Code goes on after a loop as the run does. -/
theorem matches_afterLoop {call : String → List Value → Eval Value}
    {again : Cell → Memory → Option (Exit Memory Value)} {label : Label} {env : Env} {cell : Cell}
    {memory : Memory} {result : Option Value} {recursing returning : Script}
    (recurses : if (label.notes.recurseOn.getD .empty).passes cell then
        Matches cells.Comes ((again cell memory).map .leaves)
          (recursing.exec call world env (cells.store cell memory))
      else recursing.exec call world env (cells.store cell memory) =
        .ok (.falls env, cells.store cell memory))
    (returns : Matches cells.Comes
      (if (label.notes.returnOn.getD .empty).passes cell then
        some (.leaves (.ends (if CoordSet.passes label.jumps.returns cell then result else none)
          cell memory))
      else some (.falls cell memory))
      (returning.exec call world env (cells.store cell memory))) :
    Matches cells.Comes (Runner.afterLoop again label (.ends result cell memory))
      (Script.exec call world (recursing ++ returning) env (cells.store cell memory)) := by
  rw [Script.exec_append, bind_apply, Runner.afterLoop]
  split at recurses
  · next asked =>
    rw [if_pos asked]
    rcases recurses.cases with ⟨out, ⟨ended, store⟩, ran, made, comes⟩ | ⟨ran, stop, fails⟩
    · obtain ⟨exit, -, rfl⟩ := Option.map_eq_some_iff.1 ran
      rw [ran, made]
      cases comes with
      | leaves leaves => exact .answer (.leaves leaves)
    · rw [ran, fails]
      exact .stops
  · next onward =>
    rw [if_neg onward, recurses]
    exact returns

omit celled order in
/-- The result of a loop has a reserved name, and not that of the cell. -/
theorem isReserved_loopResult {label : Label} :
    IsReserved (loopResult label) ∧ loopResult label ≠ controlCell := by
  have start : "__loop_res_".toList <+: (loopResult label).toList := by
    rw [loopResult, String.toList_append]
    exact List.prefix_append _ _
  refine ⟨.trans (by decide) start, fun same => ?_⟩
  rw [same] at start
  exact absurd start (by decide)

/-- A loop is lowered to a function that does what the loop does. -/
theorem Celled.gives_loop (incoming : job.method.incoming = []) {label : Label}
    {entries : SortedSet BlockId} {loopBody : Tree} {around : Option BlockId}
    (valued : label.notes.valueLoop = some (!label.jumps.returns.isEmpty))
    (recursing : ∀ coord ∈ label.notes.recurseOn.getD .empty, coord ∈ job.flags.recorded)
    (returning : ∀ coord ∈ label.notes.returnOn.getD .empty, coord ∈ job.flags.recorded)
    (succeeds : Lower.Succeeds
      (job.tree (scope.insideLoop (job.loopFrame scope label)) loopBody) fun answer =>
        answer.2 = scope.insideLoop (job.loopFrame scope label))
    (gives : Lower.Gives (·.UpTo final)
      (job.tree (scope.insideLoop (job.loopFrame scope label)) loopBody) fun answer made =>
        job.Covers graph world cells (scope.insideLoop (job.loopFrame scope label)) (some loopBody)
          (loopBody.nestings (some label.head))
          (fun enter => loopBody.run (job.runner graph world) enter (some loopBody))
          answer.1 made) :
    Lower.Gives (·.UpTo final) (job.tree scope (.loop label entries loopBody)) fun answer made =>
      job.Covers graph world cells scope body ((Tree.loop label entries loopBody).nestings around)
        (fun enter => (Tree.loop label entries loopBody).run (job.runner graph world) enter body)
        answer.1 made := by
  rw [Job.tree]
  refine Lower.Gives.bind_known succeeds gives ?_
  rintro ⟨steps, _⟩ rfl
  refine Lower.Gives.addHelper.bind fun _ => ?_
  refine (celled.answers_recurseAfter order recursing).bind fun recurse => ?_
  refine (celled.answers_returnAfter order returning).bind fun leave => .pure ?_
  rintro returns recurses _ rfl made covers
  rw [List.append_nil]
  refine ⟨?_, fun program depth resolves rounds env cell memory seen => ?_⟩
  · rw [List.map_append, Tree.nestings, List.map_cons]
    exact List.perm_append_comm.trans (covers.names.cons _)
  · have own := celled.rounds incoming covers.carriesOut
      (fun function member => resolves function (List.mem_append_left _ member))
      (resolves _ (List.mem_append_right _ (List.mem_singleton_self _))) depth
    cases own with
    | inside again =>
        rw [Tree.run, List.append_assoc, exec_runLoop, bind_apply]
        refine (again env cell memory seen).bind fun exit result left => ?_
        cases left with
        | @ends result value cell memory same =>
            have yields (isReturn : CoordSet.passes label.jumps.returns cell = true) :
                (job.loopFrame scope label).yieldsValue = true := by
              cases empty : label.jumps.returns.isEmpty with
              | true => simp [not_passes_of_isEmpty empty] at isReturn
              | false => simp [loopFrame, valued, empty]
            have seenAfter : cells.Seen (if (job.loopFrame scope label).yieldsValue then
                (loopResult label, value) :: env else env) := by
              split
              · exact seen.cons isReserved_loopResult.1 isReserved_loopResult.2
              · exact seen
            refine matches_afterLoop (recurses _ _ _ _ _ _ _ rounds seenAfter)
              (returns _ _ _ _ _ seenAfter _ _ same fun isReturn => ?_)
            rw [if_pos (yields isReturn), List.lookup_cons_self]

end Job

end GotoFree
