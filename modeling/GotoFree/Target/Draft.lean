import GotoFree.Target.Stmt

/-!
# Drafts

A draft holds statements in the making with the blocks that bindings have opened, the innermost on
top. What is added goes into the innermost block; `Draft.finish` closes the blocks, one after the
other. The edits of a draft add steps to a script as well (`Edit.steps`), and `nested` lists the
statements that edits make, each binding around all that follows it.
-/

namespace GotoFree.Target

/-- A binding with what has been added behind it. -/
structure OpenBlock where
  pattern : Pattern
  value : Expr
  stmts : List Stmt

/-- Statements in the making: those in front of all bindings, and the blocks that bindings have
opened, the innermost first. -/
structure Draft where
  front : List Stmt
  opened : List OpenBlock

namespace Draft

/-- A draft to which nothing has been added. -/
def fresh : Draft := ⟨[], []⟩

/-- What has been added to the innermost block. -/
def top (draft : Draft) : List Stmt :=
  match draft.opened with
  | [] => draft.front
  | block :: _ => block.stmts

/-- Adds statements. -/
def extend (draft : Draft) (stmts : List Stmt) : Draft :=
  match draft.opened with
  | [] => { draft with front := draft.front ++ stmts }
  | block :: around =>
      { draft with opened := { block with stmts := block.stmts ++ stmts } :: around }

/-- Adds a statement. -/
def push (draft : Draft) (stmt : Stmt) : Draft := draft.extend [stmt]

/-- Opens a block with a binding. -/
def bind (draft : Draft) (pattern : Pattern) (value : Expr) : Draft :=
  { draft with opened := ⟨pattern, value, []⟩ :: draft.opened }

/-- Opens a block with a binding of a variable. -/
def bindName (draft : Draft) (name : String) (value : Expr) : Draft :=
  draft.bind (.var name) value

/-- Opens a block with a binding of a variable to a new cell with its content. -/
def bindCell (draft : Draft) (name : String) (content : Expr) : Draft :=
  draft.bindName name (.mkRef content)

/-- Adds a write to a cell. -/
def assign (draft : Draft) (target : String) (value : Expr) : Draft :=
  draft.push (.assign target value)

/-- Adds a return. -/
def ret (draft : Draft) (value : Expr) : Draft := draft.push (.ret value)

/-- Whether control never comes out of the end of what has been added. -/
def isTerminal (draft : Draft) : Bool := Stmt.allTerminal draft.top

/-- Whether nothing has been added. -/
def isEmpty (draft : Draft) : Bool := draft.opened.isEmpty && draft.front.isEmpty

/-- Closes the innermost block: it becomes a statement of the one around it. -/
def closeInner (draft : Draft) : Draft :=
  match draft.opened with
  | [] => draft
  | block :: around =>
      { draft with opened := around }.push (.bind block.pattern block.value block.stmts)

/-- Closes some number of blocks. -/
def closeInners : Nat → Draft → Draft
  | 0, draft => draft
  | count + 1, draft => closeInners count draft.closeInner

/-- The statements of a draft when all blocks are closed. -/
def finish (draft : Draft) : List Stmt := (closeInners draft.opened.length draft).front

end Draft

/-! ## Edits -/

/-- What is done to statements in the making. -/
inductive Edit where
  | push (stmt : Stmt)
  | extend (stmts : List Stmt)
  | bind (pattern : Pattern) (value : Expr)
  | bindName (name : String) (value : Expr)
  | bindCell (name : String) (content : Expr)
  | assign (target : String) (value : Expr)
  | ret (value : Expr)

/-- Edits a draft. -/
def Draft.edit (draft : Draft) : Edit → Draft
  | .push stmt => draft.push stmt
  | .extend stmts => draft.extend stmts
  | .bind pattern value => draft.bind pattern value
  | .bindName name value => draft.bindName name value
  | .bindCell name content => draft.bindCell name content
  | .assign target value => draft.assign target value
  | .ret value => draft.ret value

/-- The steps that an edit adds to a script. -/
def Edit.steps : Edit → Script
  | .push stmt => [.stmt stmt]
  | .extend stmts => Script.ofStmts stmts
  | .bind pattern value => [.bind pattern value]
  | .bindName name value => [Script.bindName name value]
  | .bindCell name content => [Script.bindCell name content]
  | .assign target value => [Script.assign target value]
  | .ret value => [Script.ret value]

/-- The statements that edits make: each binding is around what the later edits make. -/
def nested : List Edit → List Stmt
  | [] => []
  | .push stmt :: later => stmt :: nested later
  | .extend stmts :: later => stmts ++ nested later
  | .bind pattern value :: later => [.bind pattern value (nested later)]
  | .bindName name value :: later => [.bind (.var name) value (nested later)]
  | .bindCell name content :: later => [.bind (.var name) (.mkRef content) (nested later)]
  | .assign target value :: later => .assign target value :: nested later
  | .ret value :: later => .ret value :: nested later

end GotoFree.Target
