import GotoFree.Target.Program

/-!
# Scoping

Every name that code uses is to be bound around it, and a name that is read as a cell or written to
is to stand for a cell. A name stands for a cell if it is bound to a new one, if it is a slot of an
object whose slots are cells, or if it is a parameter for a cell of the function, which every call
passes the name of a cell (`Signature.Accepts`).
-/

namespace GotoFree.Target

/-- What a name stands for. -/
inductive Kind where
  | cell
  /-- Any value. -/
  | plain
deriving DecidableEq

/-- The names in scope with what they stand for; the last binding of a name comes first. -/
abbrev Context := List (String × Kind)

/-- A function as its callers see it. -/
structure Signature where
  name : String
  params : Context

/-- Every parameter for a cell gets the name of a cell. -/
def Signature.Accepts (signature : Signature) (context : Context) (args : List Expr) : Prop :=
  ∀ (index : Nat) (name : String), signature.params[index]? = some (name, .cell) →
    ∃ passed, args[index]? = some (.var passed) ∧ context.lookup passed = some .cell

/-- An expression uses names as they stand in a context, and calls functions of some signatures. -/
inductive Expr.Scoped (signatures : List Signature) (context : Context) : Expr → Prop where
  | var {name : String} {kind : Kind} (known : context.lookup name = some kind) :
      Scoped signatures context (.var name)
  | int {value : Int} : Scoped signatures context (.int value)
  | bool {value : Bool} : Scoped signatures context (.bool value)
  | null : Scoped signatures context .null
  | unit : Scoped signatures context .unit
  | nondet : Scoped signatures context .nondet
  | contentOf {name : String} (isCell : context.lookup name = some .cell) :
      Scoped signatures context (.contentOf name)
  | deref {cell : Expr} (computed : ∀ name, cell ≠ .var name)
      (inner : Scoped signatures context cell) : Scoped signatures context (.deref cell)
  | mkRef {content : Expr} (inner : Scoped signatures context content) :
      Scoped signatures context (.mkRef content)
  | mkArray {size : Expr} (inner : Scoped signatures context size) :
      Scoped signatures context (.mkArray size)
  | index {base position : Expr} (ofBase : Scoped signatures context base)
      (ofPosition : Scoped signatures context position) :
      Scoped signatures context (.index base position)
  | length {base : Expr} (inner : Scoped signatures context base) :
      Scoped signatures context (.length base)
  | tuple {components : List Expr}
      (inner : ∀ component ∈ components, Scoped signatures context component) :
      Scoped signatures context (.tuple components)
  | proj {base : Expr} {component : Nat} (inner : Scoped signatures context base) :
      Scoped signatures context (.proj base component)
  | binary {op : BinOp} {left right : Expr} (ofLeft : Scoped signatures context left)
      (ofRight : Scoped signatures context right) :
      Scoped signatures context (.binary op left right)
  | unary {op : UnOp} {operand : Expr} (inner : Scoped signatures context operand) :
      Scoped signatures context (.unary op operand)
  | call {signature : Signature} {args : List Expr} (known : signature ∈ signatures)
      (inner : ∀ arg ∈ args, Scoped signatures context arg)
      (accepts : signature.Accepts context args) :
      Scoped signatures context (.call signature.name args)

/-- The names that a binding brings into scope, where the slots of objects are of a kind. -/
def Pattern.context (slots : Kind) (value : Expr) : Pattern → Context
  | .var name => [(name, match value with | .mkRef _ => .cell | _ => .plain)]
  | .tuple names => names.filterMap fun name => name.map fun name => (name, slots)

/-- A statement uses names as they stand in a context. -/
inductive Stmt.Scoped (slots : Kind) (signatures : List Signature) : Context → Stmt → Prop where
  | bind {context : Context} {pattern : Pattern} {value : Expr} {body : List Stmt}
      (ofValue : value.Scoped signatures context)
      (ofBody : ∀ stmt ∈ body,
        Scoped slots signatures (pattern.context slots value ++ context) stmt) :
      Scoped slots signatures context (.bind pattern value body)
  | assign {context : Context} {target : String} {value : Expr}
      (isCell : context.lookup target = some .cell) (inner : value.Scoped signatures context) :
      Scoped slots signatures context (.assign target value)
  | arrayStore {context : Context} {array position value : Expr}
      (ofArray : array.Scoped signatures context) (ofPosition : position.Scoped signatures context)
      (ofValue : value.Scoped signatures context) :
      Scoped slots signatures context (.arrayStore array position value)
  | cond {context : Context} {condition : Expr} {thenBranch elseBranch : List Stmt}
      (inner : condition.Scoped signatures context)
      (ofThen : ∀ stmt ∈ thenBranch, Scoped slots signatures context stmt)
      (ofElse : ∀ stmt ∈ elseBranch, Scoped slots signatures context stmt) :
      Scoped slots signatures context (.cond condition thenBranch elseBranch)
  | ret {context : Context} {value : Expr} (inner : value.Scoped signatures context) :
      Scoped slots signatures context (.ret value)
  | assert {context : Context} {condition : Expr} (inner : condition.Scoped signatures context) :
      Scoped slots signatures context (.assert condition)
  | aliased {context : Context} {left right : Expr} (ofLeft : left.Scoped signatures context)
      (ofRight : right.Scoped signatures context) :
      Scoped slots signatures context (.aliased left right)
  | expr {context : Context} {value : Expr} (inner : value.Scoped signatures context) :
      Scoped slots signatures context (.expr value)

/-- A function with a signature uses only its parameters and the names that it binds itself. -/
structure Function.Scoped (slots : Kind) (signatures : List Signature) (signature : Signature)
    (function : Function) : Prop where
  name : signature.name = function.name
  params : signature.params.map Prod.fst = function.params
  body : ∀ stmt ∈ function.body, stmt.Scoped slots signatures signature.params

/-! ## Larger contexts -/

/-- A context that tells the same of all names in another one. -/
def Context.Extends (later context : Context) : Prop :=
  ∀ name kind, context.lookup name = some kind → later.lookup name = some kind

section Extends

variable {context later : Context} {slots : Kind} {signatures : List Signature}

theorem Context.Extends.append (extends_ : later.Extends context) (front : Context) :
    Context.Extends (front ++ later) (front ++ context) := by
  intro name kind
  rw [List.lookup_append, List.lookup_append]
  cases front.lookup name with
  | none => exact extends_ name kind
  | some known => exact id

theorem Expr.Scoped.mono (extends_ : later.Extends context) {expr : Expr}
    (inner : expr.Scoped signatures context) : expr.Scoped signatures later := by
  induction inner with
  | var known => exact .var (extends_ _ _ known)
  | int => exact .int
  | bool => exact .bool
  | null => exact .null
  | unit => exact .unit
  | nondet => exact .nondet
  | contentOf isCell => exact .contentOf (extends_ _ _ isCell)
  | deref computed _ ih => exact .deref computed ih
  | mkRef _ ih => exact .mkRef ih
  | mkArray _ ih => exact .mkArray ih
  | index _ _ base position => exact .index base position
  | length _ ih => exact .length ih
  | tuple _ ih => exact .tuple ih
  | proj _ ih => exact .proj ih
  | binary _ _ left right => exact .binary left right
  | unary _ ih => exact .unary ih
  | call known _ accepts ih =>
      refine .call known ih fun index name isCell => ?_
      obtain ⟨passed, isArg, named⟩ := accepts index name isCell
      exact ⟨passed, isArg, extends_ _ _ named⟩

theorem Stmt.Scoped.mono (extends_ : later.Extends context) {stmt : Stmt}
    (inner : stmt.Scoped slots signatures context) : stmt.Scoped slots signatures later := by
  induction inner generalizing later with
  | bind ofValue _ ih =>
      exact .bind (ofValue.mono extends_) fun stmt member =>
        ih stmt member (extends_.append _)
  | assign isCell inner => exact .assign (extends_ _ _ isCell) (inner.mono extends_)
  | arrayStore ofArray ofPosition ofValue =>
      exact .arrayStore (ofArray.mono extends_) (ofPosition.mono extends_) (ofValue.mono extends_)
  | cond inner _ _ ofThen ofElse =>
      exact .cond (inner.mono extends_) (fun stmt member => ofThen stmt member extends_)
        fun stmt member => ofElse stmt member extends_
  | ret inner => exact .ret (inner.mono extends_)
  | assert inner => exact .assert (inner.mono extends_)
  | aliased ofLeft ofRight => exact .aliased (ofLeft.mono extends_) (ofRight.mono extends_)
  | expr inner => exact .expr (inner.mono extends_)

end Extends

end GotoFree.Target
