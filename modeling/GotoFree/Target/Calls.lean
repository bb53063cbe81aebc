import GotoFree.Target.Program

/-!
# The calls in code

A call names a function and passes it some arguments. It fits a function if it is like the
function's heading: the same name, and as many arguments as the function has parameters.
-/

namespace GotoFree.Target

mutual

/-- The calls in an expression, each by the name of the function and the number of arguments. -/
def Expr.calls : Expr → List (String × Nat)
  | .var _ | .int _ | .bool _ | .null | .unit | .nondet => []
  | .deref inner | .mkRef inner | .mkArray inner | .length inner | .proj inner _
  | .unary _ inner => inner.calls
  | .index left right | .binary _ left right => left.calls ++ right.calls
  | .tuple components => callsOfAll components
  | .call function args => (function, args.length) :: callsOfAll args

/-- The calls in a list of expressions. -/
def Expr.callsOfAll : List Expr → List (String × Nat)
  | [] => []
  | expr :: rest => expr.calls ++ callsOfAll rest

end

mutual

/-- The calls in a statement. -/
def Stmt.calls : Stmt → List (String × Nat)
  | .bind _ value body => value.calls ++ callsOfAll body
  | .assign _ value | .ret value | .assert value | .expr value => value.calls
  | .arrayStore array position value => array.calls ++ position.calls ++ value.calls
  | .cond condition thenBranch elseBranch =>
      condition.calls ++ callsOfAll thenBranch ++ callsOfAll elseBranch
  | .aliased left right => left.calls ++ right.calls

/-- The calls in a list of statements. -/
def Stmt.callsOfAll : List Stmt → List (String × Nat)
  | [] => []
  | stmt :: rest => stmt.calls ++ callsOfAll rest

end

/-- The calls in a step. -/
def Step.calls : Step → List (String × Nat)
  | .stmt inner => inner.calls
  | .bind _ value => value.calls

/-- The calls in a script. -/
def Script.calls (script : Script) : List (String × Nat) := script.flatMap Step.calls

namespace Function

/-- The call that a function takes: its name with the number of its parameters. -/
def heading (function : Function) : String × Nat := (function.name, function.params.length)

/-- The calls in a function. -/
def calls (function : Function) : List (String × Nat) := Stmt.callsOfAll function.body

end Function

/-- The calls in a program: those in its functions, and the one that runs it. -/
def Program.calls (program : Program) : List (String × Nat) :=
  program.functions.flatMap Function.calls ++ program.entry.toList.map (·, 0)

/-! ## Expressions -/

namespace Expr

@[simp] theorem calls_var {name : String} : (var name).calls = [] := rfl

@[simp] theorem calls_int {value : Int} : (int value).calls = [] := rfl

@[simp] theorem calls_contentOf {name : String} : (contentOf name).calls = [] := rfl

/-- The calls of some expressions are those of each of them. -/
theorem callsOfAll_eq {list : List Expr} : callsOfAll list = list.flatMap calls := by
  induction list with
  | nil => rfl
  | cons first rest ih => exact congrArg (first.calls ++ ·) ih

theorem callsOfAll_eq_nil {list : List Expr} (none : ∀ expr ∈ list, expr.calls = []) :
    callsOfAll list = [] := by
  rw [callsOfAll_eq, List.flatMap_eq_nil_iff]
  exact none

@[simp] theorem callsOfAll_map_var {names : List String} : callsOfAll (names.map var) = [] := by
  apply callsOfAll_eq_nil
  intro expr member
  obtain ⟨name, -, rfl⟩ := List.mem_map.1 member
  exact calls_var

/-- A function that is called with variables is all that is called. -/
@[simp] theorem calls_call_vars {function : String} {names : List String} :
    (call function (names.map var)).calls = [(function, names.length)] := by
  change (function, (names.map var).length) :: callsOfAll (names.map var) = _
  rw [callsOfAll_map_var, List.length_map]

/-- A test of a value calls nothing but what the value calls. -/
theorem calls_anyOf? {value test : Expr} {numbers : List Int} (none : value.calls = [])
    (isTest : value.anyOf? numbers = some test) : test.calls = [] := by
  have folded (rest : List Int) (tests : Expr) (start : tests.calls = []) :
      (rest.foldl (fun tests n => binary .or tests (binary .eq value (.int n))) tests).calls =
        [] := by
    induction rest generalizing tests with
    | nil => exact start
    | cons second others ih => exact ih _ (by simp [calls, start, none])
  cases numbers with
  | nil => cases isTest
  | cons first rest =>
      cases isTest
      exact folded rest _ (by simp [calls, none])

end Expr

/-! ## Scripts -/

@[simp] theorem Step.calls_stmt {inner : Stmt} : (Step.stmt inner).calls = inner.calls := rfl

@[simp] theorem Step.calls_bind {pattern : Pattern} {value : Expr} :
    (Step.bind pattern value).calls = value.calls := rfl

namespace Stmt

@[simp] theorem callsOfAll_nil : callsOfAll [] = [] := rfl

@[simp] theorem callsOfAll_cons {first : Stmt} {rest : List Stmt} :
    callsOfAll (first :: rest) = first.calls ++ callsOfAll rest := rfl

@[simp] theorem callsOfAll_append {list more : List Stmt} :
    callsOfAll (list ++ more) = callsOfAll list ++ callsOfAll more := by
  induction list with
  | nil => simp
  | cons first rest ih => simp [ih]

/-- Statements make no call if none of them does. -/
theorem callsOfAll_eq_nil_iff {list : List Stmt} :
    callsOfAll list = [] ↔ ∀ stmt ∈ list, stmt.calls = [] := by
  induction list with
  | nil => simp
  | cons first rest ih => simp [ih]

@[simp] theorem calls_assertFalse : assertFalse.calls = [] := rfl

end Stmt

namespace Script

variable {script other : Script}

@[simp] theorem calls_nil : calls [] = [] := rfl

@[simp] theorem calls_cons {step : Step} :
    calls (step :: script) = step.calls ++ script.calls := rfl

/-- Scripts in a row make the calls of both. -/
@[simp] theorem calls_append : calls (script ++ other) = script.calls ++ other.calls :=
  List.flatMap_append

@[simp] theorem calls_ofStmts {stmts : List Stmt} :
    (ofStmts stmts).calls = Stmt.callsOfAll stmts := by
  induction stmts with
  | nil => exact Stmt.callsOfAll_nil.symm
  | cons first rest ih =>
      rw [Stmt.callsOfAll_cons, ← ih]
      rfl

/-- Nesting the bindings of a script changes none of its calls. -/
@[simp] theorem calls_stmts : Stmt.callsOfAll script.stmts = script.calls := by
  induction script with
  | nil => exact Stmt.callsOfAll_nil
  | cons step rest ih =>
      cases step with
      | stmt stmt => rw [stmts, Stmt.callsOfAll_cons, ih, calls_cons, Step.calls_stmt]
      | bind pattern value =>
          rw [stmts, Stmt.callsOfAll_cons, Stmt.calls, ih, calls_cons, Step.calls_bind,
            Stmt.callsOfAll_nil, List.append_nil]

@[simp] theorem calls_bindName {name : String} {value : Expr} :
    (bindName name value).calls = value.calls := rfl

@[simp] theorem calls_bindCell {name : String} {content : Expr} :
    (bindCell name content).calls = content.calls := rfl

@[simp] theorem calls_assign {target : String} {value : Expr} :
    (assign target value).calls = value.calls := rfl

@[simp] theorem calls_ret {value : Expr} : (ret value).calls = value.calls := rfl

end Script

end GotoFree.Target
