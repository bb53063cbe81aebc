import GotoFree.Proofs.Answers
import GotoFree.Target.Run

/-!
# Running scripts

A script is run step by step, and the names it binds stay bound (`Script.exec`); its statements do
the same, except that the names end with them (`execAll_stmts`). A terminal script never falls
through (`Script.exec_terminal`).
-/

namespace GotoFree.Target

variable {call : String → List Value → Eval Value} {world : World} {env : Env}

/-- How control comes out of a script. -/
inductive Ended where
  /-- It goes on behind the script, where more names are bound. -/
  | falls (env : Env)
  | returns (value : Value)

/-- How control comes out of the statements of a script. -/
def Ended.completion : Ended → Completion
  | falls _ => .falls
  | returns value => .returns value

/-- Goes on where control falls out of a script. -/
def Ended.andThen (rest : Env → Eval Ended) : Ended → Eval Ended
  | falls env => rest env
  | returns value => return .returns value

/-- How control comes out of a script of one statement. -/
def Completion.ended (env : Env) : Completion → Ended
  | falls => .falls env
  | returns value => .returns value

namespace Script

/-- Runs a script. -/
def exec (call : String → List Value → Eval Value) (world : World) : Script → Env → Eval Ended
  | [], env => return .falls env
  | .stmt stmt :: rest, env => do
      match ← stmt.exec call world env with
      | .falls => exec call world rest env
      | .returns value => return .returns value
  | .bind pattern value :: rest, env => do
      let result ← value.eval call world env
      let bound ← pattern.bound result
      exec call world rest (bound ++ env)

/-- Scripts in a row run one after the other. -/
theorem exec_append {first second : Script} :
    exec call world (first ++ second) env =
      exec call world first env >>= Ended.andThen (exec call world second) := by
  induction first generalizing env with
  | nil => simp only [List.nil_append, exec, pure_bind, Ended.andThen]
  | cons step rest ih =>
      cases step with
      | stmt stmt =>
          simp only [List.cons_append, exec, bind_assoc]
          congr 1
          funext completion
          cases completion with
          | falls => exact ih
          | returns value => simp only [pure_bind, Ended.andThen]
      | bind pattern value =>
          simp only [List.cons_append, exec, bind_assoc]
          congr 1
          funext result
          congr 1
          funext bound
          exact ih

/-- A statement runs as a script of its own. -/
theorem exec_stmt {stmt : Stmt} :
    exec call world [.stmt stmt] env =
      stmt.exec call world env >>= fun completion => pure (completion.ended env) := by
  simp only [exec]
  congr 1
  funext completion
  cases completion <;> rfl

/-- The statements of a script do what the script does. -/
theorem execAll_stmts {script : Script} :
    Stmt.execAll call world env script.stmts =
      exec call world script env >>= fun ended => pure ended.completion := by
  induction script generalizing env with
  | nil => simp only [stmts, Stmt.execAll, exec, pure_bind, Ended.completion]
  | cons step rest ih =>
      cases step with
      | stmt stmt =>
          simp only [stmts, Stmt.execAll, exec, bind_assoc]
          congr 1
          funext completion
          cases completion with
          | falls => exact ih
          | returns value => simp only [pure_bind, Ended.completion]
      | bind pattern value =>
          simp only [stmts, Stmt.execAll, Stmt.exec, exec, bind_assoc, ih]
          congr 1
          funext result
          congr 1
          funext bound
          congr 1
          funext ended
          cases ended <;> simp only [pure_bind, Ended.completion]

/-- Statements as a script do what the statements do. -/
theorem exec_ofStmts {stmts : List Stmt} :
    exec call world (ofStmts stmts) env =
      Stmt.execAll call world env stmts >>= fun completion => pure (completion.ended env) := by
  induction stmts with
  | nil => simp only [ofStmts, List.map_nil, exec, Stmt.execAll, pure_bind, Completion.ended]
  | cons stmt rest ih =>
      simp only [ofStmts, List.map_cons, exec, Stmt.execAll, bind_assoc] at ih ⊢
      congr 1
      funext completion
      cases completion with
      | falls => exact ih
      | returns value => simp only [pure_bind, Completion.ended]

end Script

/-! ## Terminal statements -/

mutual

/-- A terminal statement is left by a return if it is left at all. -/
theorem Stmt.exec_terminal {stmt : Stmt} (terminal : stmt.isTerminal = true) {env : Env}
    {before after : Store} {completion : Completion}
    (ran : stmt.exec call world env before = .ok (completion, after)) :
    ∃ value, completion = .returns value := by
  cases stmt with
  | ret value =>
      rw [Stmt.exec] at ran
      obtain ⟨result, between, -, ends⟩ := stepped_bind_iff.1 ran
      cases ends
      exact ⟨result, rfl⟩
  | assert condition =>
      obtain rfl : condition = .bool false := by
        cases condition with
        | bool value => cases value <;> first | rfl | cases terminal
        | _ => cases terminal
      cases ran
  | bind pattern value body =>
      rw [Stmt.exec] at ran
      obtain ⟨result, between, -, ran⟩ := stepped_bind_iff.1 ran
      obtain ⟨bound, between, -, ran⟩ := stepped_bind_iff.1 ran
      exact Stmt.execAll_terminal (by simpa only [isTerminal] using terminal) ran
  | cond condition thenBranch elseBranch =>
      simp only [isTerminal, Bool.and_eq_true] at terminal
      rw [Stmt.exec] at ran
      obtain ⟨result, between, -, ran⟩ := stepped_bind_iff.1 ran
      split at ran
      · exact Stmt.execAll_terminal terminal.1 ran
      · exact Stmt.execAll_terminal terminal.2 ran
      · cases ran
  | assign | arrayStore | aliased | expr => cases terminal

/-- A block that ends in a terminal statement is left by a return if it is left at all. -/
theorem Stmt.execAll_terminal {stmts : List Stmt} (terminal : allTerminal stmts = true) {env : Env}
    {before after : Store} {completion : Completion}
    (ran : Stmt.execAll call world env stmts before = .ok (completion, after)) :
    ∃ value, completion = .returns value := by
  cases stmts with
  | nil => cases terminal
  | cons stmt rest =>
      rw [Stmt.execAll] at ran
      obtain ⟨first, between, here, ran⟩ := stepped_bind_iff.1 ran
      cases first with
      | returns value =>
          cases ran
          exact ⟨value, rfl⟩
      | falls =>
          cases rest with
          | nil =>
              obtain ⟨value, same⟩ := Stmt.exec_terminal terminal here
              cases same
          | cons second rest =>
              have later : allTerminal (second :: rest) = true := by
                simpa only [allTerminal] using terminal
              exact Stmt.execAll_terminal later ran

end

/-- A terminal script is left by a return if it is left at all. -/
theorem Script.exec_terminal {script : Script} (terminal : script.isTerminal = true)
    {before after : Store} {ended : Ended}
    (ran : script.exec call world env before = .ok (ended, after)) :
    ∃ value, ended = .returns value := by
  obtain ⟨stmt, last, isTerminal⟩ : ∃ stmt, script.getLast? = some (.stmt stmt) ∧
      stmt.isTerminal = true := by
    unfold Script.isTerminal at terminal
    split at terminal
    · next stmt last => exact ⟨stmt, last, terminal⟩
    · cases terminal
    · cases terminal
  obtain ⟨front, rfl⟩ := List.getLast?_eq_some_iff.1 last
  rw [exec_append] at ran
  obtain ⟨first, between, -, ran⟩ := stepped_bind_iff.1 ran
  cases first with
  | returns value =>
      cases ran
      exact ⟨value, rfl⟩
  | falls env =>
      rw [Ended.andThen, exec_stmt] at ran
      obtain ⟨completion, after, here, ran⟩ := stepped_bind_iff.1 ran
      obtain ⟨value, rfl⟩ := Stmt.exec_terminal isTerminal here
      cases ran
      exact ⟨value, rfl⟩

end GotoFree.Target
