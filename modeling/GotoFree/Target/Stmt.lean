import GotoFree.Target.Expr

/-!
# Statements of the structured language

A binding scopes over a block of its own. A `Script` is a list of statements in the making, in
which a binding scopes over all that comes after it; `Script.stmts` nests the bindings.
-/

namespace GotoFree.Target

/-- The left-hand side of a binding. -/
inductive Pattern where
  | var (name : String)
  /-- The components of a tuple; some may be passed over. -/
  | tuple (names : List (Option String))
deriving DecidableEq

/-- The text of a pattern. -/
def Pattern.text : Pattern → String
  | .var name => name
  | .tuple names => "(" ++ ", ".intercalate (names.map fun name => name.getD "_") ++ ")"

/-- A statement. -/
inductive Stmt where
  | bind (pattern : Pattern) (value : Expr) (body : List Stmt)
  /-- Writes to the cell that a variable holds. -/
  | assign (target : String) (value : Expr)
  | arrayStore (array position value : Expr)
  | cond (condition : Expr) (thenBranch elseBranch : List Stmt)
  | ret (value : Expr)
  | assert (condition : Expr)
  /-- States that two paths denote one cell. -/
  | aliased (left right : Expr)
  /-- Evaluates an expression for what it does. -/
  | expr (value : Expr)

namespace Stmt

/-- The statement that is never passed. -/
def assertFalse : Stmt := .assert (.bool false)

/-- A conditional without a second branch. -/
def onlyIf (condition : Expr) (thenBranch : List Stmt) : Stmt := .cond condition thenBranch []

mutual

/-- Whether control never comes out of the statement's end. -/
def isTerminal : Stmt → Bool
  | ret _ => true
  | assert (.bool false) => true
  | bind _ _ body => allTerminal body
  | cond _ thenBranch elseBranch => allTerminal thenBranch && allTerminal elseBranch
  | assert _ | assign .. | arrayStore .. | aliased .. | expr _ => false

/-- Whether control never comes out of the end of a list of statements: the last one is
terminal. -/
def allTerminal : List Stmt → Bool
  | [] => false
  | [stmt] => stmt.isTerminal
  | _ :: rest => allTerminal rest

end

end Stmt

/-! ## Scripts -/

/-- A step of a script. -/
inductive Step where
  | stmt (stmt : Stmt)
  /-- A binding for all steps that follow. -/
  | bind (pattern : Pattern) (value : Expr)

/-- Statements in the making. -/
abbrev Script := List Step

namespace Script

/-- The step that binds a variable. -/
def bindName (name : String) (value : Expr) : Step := .bind (.var name) value

/-- The step that binds a variable to a new cell with its content. -/
def bindCell (name : String) (content : Expr) : Step := bindName name (.mkRef content)

/-- The step that writes to a cell. -/
def assign (target : String) (value : Expr) : Step := .stmt (.assign target value)

/-- The step that returns. -/
def ret (value : Expr) : Step := .stmt (.ret value)

/-- Statements as steps. -/
def ofStmts (stmts : List Stmt) : Script := stmts.map .stmt

theorem ofStmts_append {stmts more : List Stmt} :
    ofStmts (stmts ++ more) = ofStmts stmts ++ ofStmts more :=
  List.map_append

/-- The statements of a script, each binding around all that follows it. -/
def stmts : Script → List Stmt
  | [] => []
  | .stmt stmt :: rest => stmt :: stmts rest
  | .bind pattern value :: rest => [.bind pattern value (stmts rest)]

/-- Whether control never comes out of the script's end: its last step is a terminal statement. -/
def isTerminal (script : Script) : Bool :=
  match script.getLast? with
  | some (.stmt stmt) => stmt.isTerminal
  | some (.bind ..) | none => false

end Script

end GotoFree.Target
