import GotoFree.Target.Stmt
import GotoFree.Text.Page

/-!
# Programs of the structured language and their text

A program is a list of functions and the name of the one that is run. In its text the statements of
a block are separated by semicolons and line ends, and blocks stand in braces, indented by two
blanks.
-/

namespace GotoFree.Target

/-- A function. -/
structure Function where
  name : String
  params : List String
  body : List Stmt

/-- A program. -/
structure Program where
  functions : List Function
  /-- The function that is run. -/
  entry : Option String

namespace Program

/-- A program without functions. -/
def empty : Program := ⟨[], none⟩

/-- The first function of a name. -/
def function? (program : Program) (name : String) : Option Function :=
  program.functions.find? fun function => function.name = name

end Program

mutual

/-- Writes a statement. -/
def Stmt.writeTo (page : Page) : Stmt → Page
  | .bind pattern value body =>
      blockTo (page.write ("let " ++ pattern.text ++ " = " ++ value.text ++ " in ")) body
  | .assign target value => page.write (target ++ " := " ++ value.text)
  | .arrayStore array position value =>
      page.write ((Expr.index array position).text ++ " <- " ++ value.text)
  | .cond condition thenBranch elseBranch =>
      let page := blockTo (page.write ("if " ++ condition.text ++ " then ")) thenBranch
      match elseBranch with
      | [] => page
      | stmt :: rest => blockTo (page.write " else ") (stmt :: rest)
  | .ret value => page.write ("return " ++ value.text)
  | .assert condition => page.write ("assert(" ++ condition.text ++ ")")
  | .aliased left right => page.write ("alias(" ++ left.text ++ " = " ++ right.text ++ ")")
  | .expr value => page.write value.text

/-- Writes a block: its statements on lines of their own between braces. -/
def blockTo (page : Page) : List Stmt → Page
  | [] => page.write "\x7b \x7d"
  | stmt :: rest =>
      let page := stmt.writeTo ((page.write "\x7b").indent true)
      ((linesTo page rest).dedent true).write "\x7d"

/-- Writes the statements after the first one of a block. -/
def linesTo (page : Page) : List Stmt → Page
  | [] => page
  | stmt :: rest => linesTo (stmt.writeTo (page.write ";\n")) rest

end

/-- The text of a block. -/
def blockText (stmts : List Stmt) : String := (blockTo .empty stmts).text

/-- The text of a statement. -/
def Stmt.text (stmt : Stmt) : String := (stmt.writeTo .empty).text

/-- Writes a function: its name, its parameters and its body. -/
def Function.writeTo (page : Page) (function : Function) : Page :=
  let page := ((page.write function.name).write "(").separated ", " function.params
  blockTo (page.write ") ") function.body

/-- The text of a program: its functions, an empty line after each, and the call that runs it. -/
def Program.text (program : Program) : String :=
  let page := program.functions.foldl
    (fun page function => (function.writeTo page).newline.newline) Page.empty
  let page := match program.entry with
    | some name => page.line ("\x7b " ++ name ++ "() \x7d")
    | none => page
  page.text

end GotoFree.Target
