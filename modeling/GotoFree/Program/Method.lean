import GotoFree.Program.Block
import GotoFree.SortedMap

/-!
# Methods

A method body is a list of blocks with an entry, typed locals and, if an allocator has run, a plan
that says for each local where it is introduced and whether it is a cell. Without a plan every
local is a cell introduced at the entry (`BindingPlan.allCells`).
-/

namespace GotoFree

/-- How a local is held: as a fixed name, or as a cell that can be written again. -/
inductive Binding where
  | const
  | mutable
deriving DecidableEq

/-- Where the locals of a method are introduced, and how. -/
structure BindingPlan where
  /-- Locals introduced once, when the method is entered. -/
  entry : SortedMap String Binding
  /-- Locals introduced when control reaches a block. -/
  blocks : SortedMap BlockId (SortedMap String Binding)
deriving DecidableEq

/-- A named value with its type: a local of a method or a field of a class. -/
structure Declared where
  name : String
  type : Ty
deriving DecidableEq

/-- Every local is a cell introduced at the entry. -/
def BindingPlan.allCells (locals : List Declared) : BindingPlan where
  entry := .ofList (locals.map fun declared => (declared.name, .mutable))
  blocks := .empty

/-- The name under which a program lists a method: class and method name joined by a point, with
the arity after a slash where the class overloads the name. -/
structure MethodId where
  text : String
deriving DecidableEq, Inhabited

namespace MethodId

instance : Key MethodId :=
  Key.ofInjective MethodId.text (by intro a b same; cases a; cases b; simpa using same)

/-- The name of a method that is not overloaded. -/
def plain (className name : String) : MethodId := ⟨className ++ "." ++ name⟩

/-- The name of a method among others of its name. -/
def overloaded (className name : String) (arity : Nat) : MethodId :=
  ⟨className ++ "." ++ name ++ "/" ++ toString arity⟩

end MethodId

/-- The body of a method. -/
structure Method where
  className : String
  name : String
  isStatic : Bool
  params : List Ty
  returnType : Ty
  locals : List Declared
  entry : BlockId
  blocks : List Block
  plan : Option BindingPlan
deriving DecidableEq

namespace Method

/-- The type of a local; the first declaration of a name counts. -/
def localType? (method : Method) (name : String) : Option Ty :=
  (method.locals.find? fun declared => declared.name = name).map Declared.type

/-- The first block with a number. -/
def block? (method : Method) (id : BlockId) : Option Block :=
  method.blocks.find? fun block => block.id = id

/-- The instructions of all blocks in the order they are listed. -/
def instrs (method : Method) : List Instr := method.blocks.flatMap Block.instrs

/-- The given plan, or the one with a cell for every local. -/
def effectivePlan (method : Method) : BindingPlan :=
  method.plan.getD (.allCells method.locals)

/-- The local each source is copied into; of several identity instructions the last one listed
counts. -/
def argumentLocals (method : Method) : SortedMap Source String :=
  .ofList (method.instrs.filterMap fun
    | .identity target source => some (source, target)
    | _ => none)

end Method

end GotoFree
