import GotoFree.Flow.Graph
import GotoFree.Program.Method

/-!
# Sketches of methods

A short way to write down a method: a sketch starts as a static method without result, locals and
blocks, and grows by one part at a time. The block that is added first is the entry.
-/

namespace GotoFree

/-- A method in the making. -/
structure Sketch where
  blocks : List Block
  locals : List Declared
  params : List Ty
  returnType : Ty
  isStatic : Bool
  plan : Option BindingPlan

namespace Sketch

/-- A static method without result, locals and blocks. -/
def empty : Sketch := ⟨[], [], [], .void, true, none⟩

/-- Adds a local. -/
def declare (sketch : Sketch) (name : String) (type : Ty) : Sketch :=
  { sketch with locals := sketch.locals ++ [⟨name, type⟩] }

/-- Adds a parameter. -/
def takes (sketch : Sketch) (type : Ty) : Sketch :=
  { sketch with params := sketch.params ++ [type] }

/-- Sets the type of the result. -/
def returns (sketch : Sketch) (type : Ty) : Sketch := { sketch with returnType := type }

/-- Makes the method one of instances. -/
def onInstances (sketch : Sketch) : Sketch := { sketch with isStatic := false }

/-- Sets the binding plan. -/
def bind (sketch : Sketch) (plan : BindingPlan) : Sketch := { sketch with plan := some plan }

/-- Adds a block. -/
def block (sketch : Sketch) (id : BlockId) (instrs : List Instr) (succs : List BlockId) : Sketch :=
  { sketch with blocks := sketch.blocks ++ [⟨id, instrs, succs⟩] }

/-- Adds a block that only goes to another one. -/
def goto (sketch : Sketch) (id target : BlockId) : Sketch := sketch.block id [.goto] [target]

/-- Adds a block that ends in a branch. -/
def branchAfter (sketch : Sketch) (id : BlockId) (instrs : List Instr) (condition : Expr)
    (taken notTaken : BlockId) : Sketch :=
  sketch.block id (instrs ++ [.branch condition]) [taken, notTaken]

/-- Adds a block that only branches, either way. -/
def branch (sketch : Sketch) (id taken notTaken : BlockId) : Sketch :=
  sketch.branchAfter id [] .nondet taken notTaken

/-- Adds a block that only returns. -/
def ret (sketch : Sketch) (id : BlockId) : Sketch := sketch.block id [.ret none] []

/-- Adds a block that ends by returning a value. -/
def retAfter (sketch : Sketch) (id : BlockId) (instrs : List Instr) (value : Operand) : Sketch :=
  sketch.block id (instrs ++ [.ret (some value)]) []

/-- The entry: the first block, or block zero where there is none. -/
def entry (sketch : Sketch) : BlockId := (sketch.blocks.head?.map Block.id).getD ⟨0⟩

/-- The graph of the blocks. -/
def graph (sketch : Sketch) : Except GraphFault BlockGraph :=
  BlockGraph.ofBlocks sketch.entry sketch.blocks

/-- The graph of blocks that are meant to be well formed. -/
def wellFormedGraph (sketch : Sketch) : Except Defect BlockGraph :=
  match sketch.graph with
  | .ok graph => .ok graph
  | .error error => .error (.malformedGraph error)

/-- The method with its class and its name. -/
def method (sketch : Sketch) (className name : String) : Method where
  className
  name
  isStatic := sketch.isStatic
  params := sketch.params
  returnType := sketch.returnType
  locals := sketch.locals
  entry := sketch.entry
  blocks := sketch.blocks
  plan := sketch.plan

end Sketch

end GotoFree
