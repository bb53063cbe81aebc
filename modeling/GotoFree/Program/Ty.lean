/-!
# Types of the program being lowered

Integers and booleans are values, objects and arrays live on the heap and are handed around by
reference.
-/

namespace GotoFree

/-- The type of a local, a parameter, a field or a result. -/
inductive Ty where
  | int
  | bool
  | ref (className : String)
  | array (element : Ty)
  | void
deriving DecidableEq, Inhabited

namespace Ty

/-- Whether values of the type live on the heap. -/
def isReference : Ty → Bool
  | .ref _ | .array _ => true
  | .int | .bool | .void => false

/-- The type as messages show it. -/
def text : Ty → String
  | .int => "int"
  | .bool => "boolean"
  | .ref className => className
  | .array element => element.text ++ "[]"
  | .void => "void"

end Ty

end GotoFree
