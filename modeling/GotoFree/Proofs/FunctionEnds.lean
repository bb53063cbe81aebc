import GotoFree.Proofs.NamesInSight
import GotoFree.Proofs.Recast
import GotoFree.Proofs.Scripts
import GotoFree.Proofs.TreeJudgements

/-!
# The ends of functions

A function that is made beside that of a method is a loop's own or a dispatch function
(`Job.gives_helpers_tree`). Each of them, and the method's own, ends in a terminal statement, and so
it never falls off its end (`Program.lower_terminal`).
-/

namespace GotoFree

open Target (Script Stmt)

namespace Target

/-! ## Runs of terminal code -/

/-- A run has come to an end: it is not stuck, and not cut off where calls are too deep. -/
def Finished (run : Except Stop (Completion × Store)) : Prop :=
  run ≠ .error .stuck ∧ run ≠ .error .tooDeep

variable {call : String → List Value → Eval Value} {world : World} {env : Env}

/-- A finished run of terminal code has returned or failed an assertion. -/
theorem Stmt.finished_terminal {stmts : List Stmt} (terminal : allTerminal stmts = true)
    {before : Store} (finished : Finished (execAll call world env stmts before)) :
    (∃ value after, execAll call world env stmts before = .ok (.returns value, after)) ∨
      execAll call world env stmts before = .error .failedAssertion := by
  cases ran : execAll call world env stmts before with
  | ok ended =>
      obtain ⟨completion, after⟩ := ended
      obtain ⟨value, rfl⟩ := execAll_terminal terminal ran
      exact .inl ⟨value, after, rfl⟩
  | error stop =>
      rw [ran] at finished
      cases stop with
      | failedAssertion => exact .inr rfl
      | stuck => exact absurd rfl finished.1
      | tooDeep => exact absurd rfl finished.2

/-- A call of a function with a terminal body stops without an answer only where its body does. -/
theorem Program.call_eq_error_iff {program : Program} {name : String} {function : Function}
    (found : program.function? name = some function)
    (terminal : Stmt.allTerminal function.body = true) {depth : Nat} {args : List Value}
    (fits : function.params.length = args.length) {before : Store} {stop : Stop} :
    program.call world (depth + 1) name args before = .error stop ↔
      Stmt.execAll (program.call world depth) world (function.params.zip args) function.body
        before = .error stop := by
  rw [call, found, Eval.expect, pure_bind, if_pos fits, bind_apply]
  cases ran : Stmt.execAll (program.call world depth) world (function.params.zip args)
      function.body before with
  | error other =>
      constructor
      · rintro ⟨⟩
        rfl
      · rintro ⟨⟩
        rfl
  | ok ended =>
      obtain ⟨completion, after⟩ := ended
      obtain ⟨value, rfl⟩ := Stmt.execAll_terminal terminal ran
      exact iff_of_false nofun nofun

/-- A script is terminal if its last statement is. -/
theorem Script.isTerminal_concat {front : Script} {stmt : Stmt} :
    isTerminal (front ++ [.stmt stmt]) = stmt.isTerminal := by
  rw [isTerminal, List.getLast?_concat]

end Target

/-! ## Functions beside that of a method -/

namespace Job

variable {job : Job} {later : Agenda} {scope : Scope} {made more : List Target.Function}

/-- The body of a function is terminal: where the end of its code may be reached, it returns. -/
theorem allTerminal_closed {steps : Script} :
    Stmt.allTerminal (job.closed scope steps) = true := by
  unfold closed
  split
  · next terminal => rwa [Script.allTerminal_stmts]
  · rw [Script.allTerminal_stmts, Script.ret, Script.isTerminal_concat, Stmt.isTerminal]

/-- A dispatch function ends in a return behind its failed assertion. -/
theorem Dispatcher.allTerminal {number : Nat} {function : Target.Function}
    (isDispatcher : job.Dispatcher later number function) :
    Stmt.allTerminal function.body = true := by
  obtain ⟨site, instr, width, arms, type, -, -, rfl⟩ := isDispatcher
  have last : Script.ofStmts (arms ++ [Stmt.assertFalse, .ret (Ty.default type)]) =
      Script.ofStmts (arms ++ [.assertFalse]) ++ [.stmt (.ret (Ty.default type))] := by
    simp [Script.ofStmts]
  rw [Script.allTerminal_stmts, last, ← List.append_assoc, Script.isTerminal_concat,
    Stmt.isTerminal]

/-- A function that is made beside that of a method: a loop's own, or a dispatch function. -/
inductive Helper (job : Job) (later : Agenda) : Target.Function → Prop
  | loop (head : BlockId) (scope after : Scope) (steps : Script) :
      Helper job later ⟨job.loopName head, job.loopParams scope, job.closed after steps⟩
  | dispatcher {number : Nat} {function : Target.Function}
      (isDispatcher : job.Dispatcher later number function) : Helper job later function

/-- Every helper function is terminal. -/
theorem Helper.allTerminal {function : Target.Function} (helper : job.Helper later function) :
    Stmt.allTerminal function.body = true := by
  cases helper with
  | loop head scope after steps => exact allTerminal_closed
  | dispatcher isDispatcher => exact isDispatcher.allTerminal

/-- Functions are made for loops and in instructions that dispatch only. -/
def Helpers (job : Job) (later : Agenda) (made : List Target.Function) : Prop :=
  ∀ function ∈ made, job.Helper later function

namespace Helpers

theorem nil : job.Helpers later [] := nofun

theorem append (first : job.Helpers later made) (second : job.Helpers later more) :
    job.Helpers later (made ++ more) :=
  List.forall_mem_append.2 ⟨first, second⟩

end Helpers

/-- The functions of a block are dispatch functions. -/
theorem gives_helpers_block {id : BlockId} :
    Lower.Gives (·.Within job.setting.program later none) (job.block scope id)
      fun _ made => job.Helpers later made := by
  unfold block
  split
  · exact .reject
  · refine Quiet.check.skip fun opened => gives_binds_instrs.bind fun body => .pure ?_
    rintro made ⟨dispatches, -⟩
    rw [List.append_nil]
    intro function member
    obtain ⟨number, isDispatcher⟩ := dispatches function member
    exact .dispatcher isDispatcher

/-- Functions are made for loops and in instructions that dispatch, wherever these stand. -/
theorem tallies_helpers : job.Tallies fun step _ _ =>
    Lower.Gives (·.Within job.setting.program later none) step fun _ made =>
      job.Helpers later made where
  still still := Lower.Gives.imp still.answers fun _ _ found => found.1 ▸ .nil
  bind one other := one.bind fun value => (other value).imp fun _ _ behind _ own =>
    own.append behind
  reject := .reject
  block := gives_helpers_block
  helper := Lower.gives_addHelper.imp fun _ _ only =>
    only ▸ List.forall_mem_singleton.2 (.loop ..)
  perm _ gives := gives

/-- A tree makes functions for its loops and in its instructions only. -/
theorem gives_helpers_tree {scope : Scope} {tree : Tree} :
    Lower.Gives (·.Within job.setting.program later none) (job.tree scope tree)
      fun _ made => job.Helpers later made :=
  tallies_helpers.tree none

end Job

/-! ## Programs -/

/-- The functions of a method have terminal bodies. -/
theorem Lower.allTerminal_method {setting : Setting} {id : MethodId} {method : Method}
    {progress after : Progress} {code : MethodCode}
    (made : Lower.method setting id method progress = .ok (code, after)) :
    ∀ function ∈ code.functions, Stmt.allTerminal function.body = true := by
  obtain ⟨job, graph, found, tree, entry, scope, steps, inside, begun, rfl, rfl, rfl, -, -, -, -,
    -, -, -, -, -, -, none, -, lowered, functions, -⟩ := method_runs made
  obtain ⟨-, more, helpers, whole⟩ :=
    @Job.gives_helpers_tree job after.agenda scope tree begun _ after lowered ⟨.refl _, nofun⟩
  rw [none, List.nil_append] at helpers
  rw [functions, helpers]
  exact List.forall_mem_append.2 ⟨fun function member => (whole function member).allTerminal,
    List.forall_mem_singleton.2 Job.allTerminal_closed⟩

/-- No function falls off its end. The body of each function of a lowered program is terminal, and
any terminal code is left by a return or a failed assertion if its run comes to an end. So a call of
one of these functions stops without an answer only where its body does. -/
theorem Program.lower_terminal {program : Program} {model : ObjectModel} {entry : Option MethodId}
    {lowered : LoweredProgram} (lowers : program.lower model entry = .ok lowered) :
    (∀ function ∈ lowered.program.functions, Stmt.allTerminal function.body = true) ∧
    (∀ stmts, Stmt.allTerminal stmts = true → ∀ call world env before,
      Target.Finished (Stmt.execAll call world env stmts before) →
        (∃ value after, Stmt.execAll call world env stmts before = .ok (.returns value, after)) ∨
          Stmt.execAll call world env stmts before = .error .failedAssertion) ∧
    ∀ name function, lowered.program.function? name = some function →
      ∀ world depth args, function.params.length = args.length → ∀ before stop,
        lowered.program.call world (depth + 1) name args before = .error stop ↔
          Stmt.execAll (lowered.program.call world depth) world (function.params.zip args)
            function.body before = .error stop := by
  obtain ⟨prepared, layout, last, -, -, ran⟩ := lower_eq_ok_iff.1 lowers
  obtain ⟨ids, codes, -, -, goods, functions, -⟩ :=
    @Lower.forall₂_program _ (fun _ _ code =>
        ∀ function ∈ code.functions, Stmt.allTerminal function.body = true)
      (fun _ _ _ _ _ terminal => terminal)
      (fun _ _ _ _ _ isMethod made =>
        ⟨(Lower.namedIn_method isMethod made).1, Lower.allTerminal_method made⟩) _ _ ran
  have terminal : ∀ function ∈ lowered.program.functions,
      Stmt.allTerminal function.body = true := by
    intro function member
    rw [functions] at member
    obtain ⟨code, isCode, among⟩ := List.mem_flatMap.1 member
    obtain ⟨id, -, good⟩ := exists_of_mem_right goods isCode
    exact good function among
  refine ⟨terminal, fun stmts ends call world env before finished =>
    Stmt.finished_terminal ends finished, fun name function found world depth args fits before
      stop => ?_⟩
  exact Target.Program.call_eq_error_iff found
    (terminal function (List.mem_of_find?_eq_some found)) fits

/-- A method with a loop is lowered to terminal functions. -/
theorem Program.lower_terminal_looping : ∃ lowered,
    (loopingProgram "helper").lower .mutable none = .ok lowered ∧
      lowered.program.functions.map Target.Function.name = ["A_m__loop_1", "A_m", "A_helper"] ∧
      ∀ function ∈ lowered.program.functions, Stmt.allTerminal function.body = true := by
  have found : (loopingProgram "helper").functionNames? =
    some ["A_m__loop_1", "A_m", "A_helper"] := by decide +kernel
  obtain ⟨lowered, lowers, names⟩ := exists_of_functionNames? found
  exact ⟨lowered, lowers, names, (lower_terminal lowers).1⟩

end GotoFree
