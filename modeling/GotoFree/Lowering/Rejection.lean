import GotoFree.Flow.Defect
import GotoFree.Program.Method

/-!
# Why a program is not lowered

A program is rejected if it uses something that has no counterpart in the structured language, if
it contradicts itself, or if the blocks of a method do not fit together.
-/

namespace GotoFree

/-- The reason why a program is not lowered. -/
inductive Rejection where
  /-- A construct without a counterpart; its method is given up rather than lowered wrongly. -/
  | unsupported (method : MethodId) (construct instruction : String) (operandTypes : List String)
  /-- The program contradicts itself. -/
  | malformed (complaint : String)
  /-- Something that earlier steps should have ruled out. -/
  | internal (complaint : String)
  | graph (method : MethodId) (error : GraphFault)
deriving DecidableEq

namespace Rejection

/-- The method that is at fault, if it is known. -/
def method? : Rejection → Option MethodId
  | unsupported method _ _ _ | graph method _ => some method
  | malformed _ | internal _ => none

/-- The text of the reason behind the reason. -/
def cause? : Rejection → Option String
  | graph _ error => some error.message
  | unsupported .. | malformed _ | internal _ => none

/-- The reason as the user sees it. -/
def message : Rejection → String
  | unsupported method construct instruction operandTypes =>
      let types := match operandTypes with
        | [] => ""
        | types => " (operand types: " ++ ", ".intercalate types ++ ")"
      "unsupported " ++ construct ++ " in " ++ method.text ++ ": \x60" ++ instruction ++ "\x60"
        ++ types
  | malformed complaint => "malformed input: " ++ complaint
  | internal complaint => "internal error: " ++ complaint
  | graph method error => "invalid block graph in " ++ method.text ++ ": " ++ error.message

end Rejection

/-- How lowering fails: the program is rejected, or a step finds that an earlier one did not keep
its promise. -/
inductive Failure where
  | rejected (reason : Rejection)
  | defect (defect : Defect)
deriving DecidableEq

end GotoFree
