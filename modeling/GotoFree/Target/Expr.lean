/-!
# Expressions of the structured language

Values, operators, tuples, arrays, reference cells and calls. The text of an expression has
brackets around every operand that is itself made with an operator or an allocation, so it shows
how the expression is put together.
-/

namespace GotoFree.Target

/-- An operator on two operands. -/
inductive BinOp where
  | add | sub | mul | div | rem
  | eq | ne | lt | le | gt | ge
  | and | or
deriving DecidableEq

/-- The operator's sign between its operands. -/
def BinOp.sign : BinOp → String
  | .add => "+"
  | .sub => "-"
  | .mul => "*"
  | .div => "/"
  | .rem => "%"
  | .eq => "="
  | .ne => "!="
  | .lt => "<"
  | .le => "<="
  | .gt => ">"
  | .ge => ">="
  | .and => "&&"
  | .or => "||"

/-- An operator on one operand. -/
inductive UnOp where
  | neg
  | not
deriving DecidableEq

/-- The operator's sign before its operand. -/
def UnOp.sign : UnOp → String
  | .neg => "-"
  | .not => "!"

/-- An expression. -/
inductive Expr where
  | var (name : String)
  | int (value : Int)
  | bool (value : Bool)
  | null
  | unit
  /-- A value that may be any. -/
  | nondet
  /-- The content of a reference cell. -/
  | deref (cell : Expr)
  /-- A new reference cell with its content. -/
  | mkRef (content : Expr)
  | mkArray (size : Expr)
  | index (base position : Expr)
  | length (base : Expr)
  | tuple (components : List Expr)
  /-- A component of a tuple, in the paths of alias statements. -/
  | proj (base : Expr) (component : Nat)
  | binary (op : BinOp) (left right : Expr)
  | unary (op : UnOp) (operand : Expr)
  | call (function : String) (args : List Expr)
deriving Inhabited

namespace Expr

/-- The content of the cell that a variable holds. -/
def contentOf (name : String) : Expr := .deref (.var name)

/-- Whether the text stands for an operand without brackets. -/
def standsAlone : Expr → Bool
  | binary .. | unary .. | mkRef _ | mkArray _ => false
  | var _ | int _ | bool _ | null | unit | nondet | deref _ | index .. | length _ | tuple _
  | proj .. | call .. => true

/-- Whether the expression selects a part of another one. -/
def isSelection : Expr → Bool
  | proj .. | index .. | length _ => true
  | _ => false

/-- Whether the expression is the content of a cell. -/
def isDeref : Expr → Bool
  | deref _ => true
  | _ => false

/-- The text in brackets, if it needs them. -/
def bracketed (needed : Bool) (text : String) : String :=
  if needed then "(" ++ text ++ ")" else text

/-- The text of an integer. -/
def intText (value : Int) : String := toString value

mutual

/-- The text of an expression. A selection from the content of a cell and the content of a selected
cell are told apart by brackets. -/
def text : Expr → String
  | var name => name
  | int value => intText value
  | bool true => "true"
  | bool false => "false"
  | null => "null"
  | unit => "()"
  | nondet => "_"
  | deref cell => "*" ++ bracketed (cell.isSelection || !cell.standsAlone) cell.text
  | mkRef content => "mkref " ++ bracketed (!content.standsAlone) content.text
  | mkArray size => "mkarray " ++ bracketed (!size.standsAlone) size.text
  | index base position =>
      bracketed (base.isDeref || !base.standsAlone) base.text ++ "[" ++ position.text ++ "]"
  | length base => bracketed (base.isDeref || !base.standsAlone) base.text ++ ".length"
  | tuple components => "(" ++ ", ".intercalate (texts components) ++ ")"
  | proj base component =>
      bracketed (base.isDeref || !base.standsAlone) base.text ++ "." ++ toString component
  | binary op left right =>
      bracketed (!left.standsAlone) left.text ++ " " ++ op.sign ++ " "
        ++ bracketed (!right.standsAlone) right.text
  | unary op operand => op.sign ++ bracketed (!operand.standsAlone) operand.text
  | call function args => function ++ "(" ++ ", ".intercalate (texts args) ++ ")"

/-- The texts of a list of expressions. -/
def texts : List Expr → List String
  | [] => []
  | expr :: rest => expr.text :: texts rest

end

/-- The test whether a value is one of some integers, in their order; there is none for no
integers. -/
def anyOf? (value : Expr) : List Int → Option Expr
  | [] => none
  | first :: rest =>
      let test (n : Int) : Expr := .binary .eq value (.int n)
      some (rest.foldl (fun tests n => .binary .or tests (test n)) (test first))

end Expr

end GotoFree.Target
