import GotoFree.Target.Program

/-!
# Running the structured language

Expressions are evaluated from left to right in an environment, which says what the names stand
for, and a store, which holds the contents of cells and arrays. A binding scopes over its block, a
return leaves the current function, and an alias statement does nothing. What the operators do and
which nondeterministic values come up is left open (`World`). A run goes only up to a depth of
calls; it may also fail an assertion, or be stuck where the language gives no meaning.
-/

namespace GotoFree.Target

/-- A value of the structured language. -/
inductive Value where
  | int (value : Int)
  | bool (value : Bool)
  | null
  | unit
  | tuple (components : List Value)
  /-- A reference cell by its address. -/
  | cell (address : Nat)
  | array (address : Nat)
deriving Inhabited

/-- What the operators do; one without an answer ends the run. On the integers that stand for flags
and tags and on the tests of them, equality and disjunction are the usual ones. -/
structure Operators where
  add : Value → Value → Option Value
  sub : Value → Value → Option Value
  mul : Value → Value → Option Value
  div : Value → Value → Option Value
  rem : Value → Value → Option Value
  eq : Value → Value → Option Value
  ne : Value → Value → Option Value
  lt : Value → Value → Option Value
  le : Value → Value → Option Value
  gt : Value → Value → Option Value
  ge : Value → Value → Option Value
  and : Value → Value → Option Value
  or : Value → Value → Option Value
  neg : Value → Option Value
  not : Value → Option Value
  eq_int : ∀ left right, eq (.int left) (.int right) = some (.bool (left = right))
  or_bool : ∀ left right, or (.bool left) (.bool right) = some (.bool (left || right))

/-- What a run does not decide itself. -/
structure World where
  operators : Operators
  /-- The nondeterministic values in the order in which they come up. -/
  stream : Nat → Value
  /-- What the positions of a new array hold. -/
  blank : Value

/-- What an operator does. -/
def BinOp.meaning (operators : Operators) : BinOp → Value → Value → Option Value
  | .add => operators.add
  | .sub => operators.sub
  | .mul => operators.mul
  | .div => operators.div
  | .rem => operators.rem
  | .eq => operators.eq
  | .ne => operators.ne
  | .lt => operators.lt
  | .le => operators.le
  | .gt => operators.gt
  | .ge => operators.ge
  | .and => operators.and
  | .or => operators.or

/-- What an operator does. -/
def UnOp.meaning (operators : Operators) : UnOp → Value → Option Value
  | .neg => operators.neg
  | .not => operators.not

/-- What a run has made so far: the contents of cells and arrays by address, and the number of
nondeterministic values that have come up. -/
structure Store where
  cells : List Value
  arrays : List (List Value)
  taken : Nat

/-- The store at the start of a program. -/
def Store.start : Store := ⟨[], [], 0⟩

/-- Why a run does not answer. -/
inductive Stop where
  | failedAssertion
  /-- The language gives no meaning to what comes next. -/
  | stuck
  /-- There are more calls inside of each other than were allowed. -/
  | tooDeep
deriving DecidableEq

/-- A step of a run. -/
abbrev Eval := StateT Store (Except Stop)

/-- What the names in scope stand for; the last binding of a name comes first. -/
abbrev Env := List (String × Value)

namespace Eval

/-- A step that has an answer or is stuck. -/
def expect {α : Type} : Option α → Eval α
  | some answer => return answer
  | none => throw .stuck

/-- A new cell with its content. -/
def newCell (content : Value) : Eval Value := do
  let store ← get
  set { store with cells := store.cells ++ [content] }
  return .cell store.cells.length

/-- The content of a cell. -/
def contentOf : Value → Eval Value
  | .cell address => do expect (← get).cells[address]?
  | _ => throw .stuck

/-- Writes to a cell. -/
def write (content : Value) : Value → Eval Unit
  | .cell address => do
      let store ← get
      if address < store.cells.length then
        set { store with cells := store.cells.set address content }
      else throw .stuck
  | _ => throw .stuck

/-- A new array of a size, whose positions hold a value. -/
def newArray (blank : Value) : Value → Eval Value
  | .int size => do
      if size < 0 then throw .stuck
      else
        let store ← get
        set { store with arrays := store.arrays ++ [List.replicate size.toNat blank] }
        return .array store.arrays.length
  | _ => throw .stuck

/-- What the positions of an array hold. -/
def elementsOf : Value → Eval (List Value)
  | .array address => do expect (← get).arrays[address]?
  | _ => throw .stuck

/-- A position of an array with some elements. -/
def positionIn (elements : List Value) : Value → Eval Nat
  | .int position =>
      if 0 ≤ position ∧ position.toNat < elements.length then return position.toNat
      else throw .stuck
  | _ => throw .stuck

/-- Writes to a position of an array. -/
def writeAt (array position content : Value) : Eval Unit := do
  let elements ← elementsOf array
  let index ← positionIn elements position
  match array with
  | .array address => modify fun store =>
      { store with arrays := store.arrays.set address (elements.set index content) }
  | _ => throw .stuck

/-- A component of a tuple. -/
def componentOf (component : Nat) : Value → Eval Value
  | .tuple components => expect components[component]?
  | _ => throw .stuck

/-- The next nondeterministic value. -/
def next (world : World) : Eval Value := do
  let store ← get
  set { store with taken := store.taken + 1 }
  return world.stream store.taken

end Eval

/-- What the names of a pattern stand for, given the value that it is bound to. -/
def Pattern.bound : Pattern → Value → Eval Env
  | .var name, value => return [(name, value)]
  | .tuple names, .tuple components =>
      if names.length = components.length then
        return (names.zip components).filterMap fun (name, value) => name.map (·, value)
      else throw .stuck
  | .tuple _, _ => throw .stuck

/-! ## Expressions -/

section Running

variable (call : String → List Value → Eval Value) (world : World)

mutual

/-- The value of an expression. -/
def Expr.eval (env : Env) : Expr → Eval Value
  | .var name => Eval.expect (env.lookup name)
  | .int value => return .int value
  | .bool value => return .bool value
  | .null => return .null
  | .unit => return .unit
  | .nondet => Eval.next world
  | .deref cell => do Eval.contentOf (← Expr.eval env cell)
  | .mkRef content => do Eval.newCell (← Expr.eval env content)
  | .mkArray size => do Eval.newArray world.blank (← Expr.eval env size)
  | .index base position => do
      let array ← Expr.eval env base
      let index ← Expr.eval env position
      let elements ← Eval.elementsOf array
      Eval.expect elements[← Eval.positionIn elements index]?
  | .length base => do
      return .int (← Eval.elementsOf (← Expr.eval env base)).length
  | .tuple components => do return .tuple (← Expr.evalAll env components)
  | .proj base component => do Eval.componentOf component (← Expr.eval env base)
  | .binary op left right => do
      let first ← Expr.eval env left
      let second ← Expr.eval env right
      Eval.expect (op.meaning world.operators first second)
  | .unary op operand => do
      Eval.expect (op.meaning world.operators (← Expr.eval env operand))
  | .call function args => do call function (← Expr.evalAll env args)

/-- The values of some expressions. -/
def Expr.evalAll (env : Env) : List Expr → Eval (List Value)
  | [] => return []
  | expr :: rest => do
      let first ← Expr.eval env expr
      return first :: (← Expr.evalAll env rest)

end

/-! ## Statements -/

/-- How control comes out of a statement. -/
inductive Completion where
  /-- It goes on behind it. -/
  | falls
  /-- It leaves the function. -/
  | returns (value : Value)

mutual

/-- Runs a statement. -/
def Stmt.exec (env : Env) : Stmt → Eval Completion
  | .bind pattern value body => do
      let result ← value.eval call world env
      let bound ← pattern.bound result
      Stmt.execAll (bound ++ env) body
  | .assign target value => do
      let result ← value.eval call world env
      let cell ← Eval.expect (env.lookup target)
      Eval.write result cell
      return .falls
  | .arrayStore array position value => do
      let base ← array.eval call world env
      let index ← position.eval call world env
      let result ← value.eval call world env
      Eval.writeAt base index result
      return .falls
  | .cond condition thenBranch elseBranch => do
      match ← condition.eval call world env with
      | .bool true => Stmt.execAll env thenBranch
      | .bool false => Stmt.execAll env elseBranch
      | _ => throw .stuck
  | .ret value => do return .returns (← value.eval call world env)
  | .assert condition => do
      match ← condition.eval call world env with
      | .bool true => return .falls
      | .bool false => throw .failedAssertion
      | _ => throw .stuck
  | .aliased _ _ => return .falls
  | .expr value => do
      let _ ← value.eval call world env
      return .falls

/-- Runs the statements of a block. -/
def Stmt.execAll (env : Env) : List Stmt → Eval Completion
  | [] => return .falls
  | stmt :: rest => do
      match ← Stmt.exec env stmt with
      | .falls => Stmt.execAll env rest
      | .returns value => return .returns value

end

end Running

/-! ## Programs -/

namespace Program

/-- Runs a function of a program on some arguments, up to a depth of calls. -/
def call (program : Program) (world : World) : Nat → String → List Value → Eval Value
  | 0, _, _ => throw .tooDeep
  | depth + 1, name, args => do
      let function ← Eval.expect (program.function? name)
      if function.params.length = args.length then
        match ← Stmt.execAll (call program world depth) world (function.params.zip args)
            function.body with
        | .returns value => return value
        | .falls => throw .stuck
      else throw .stuck

/-- A run of a program returns a value. -/
def Returns (program : Program) (world : World) (value : Value) : Prop :=
  ∃ name depth store, program.entry = some name ∧
    program.call world depth name [] .start = .ok (value, store)

end Program

end GotoFree.Target
