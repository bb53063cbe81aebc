import GotoFree.Program.Instr

/-!
# Basic blocks and the coordinates of their exits

A block is a run of instructions with an ordered list of successors. Control leaves a block along
a `Coord`: a block that ends in a branch has two, every other block has one.
-/

namespace GotoFree

/-- The number that names a block. -/
structure BlockId where
  number : UInt32
deriving DecidableEq, Inhabited

namespace BlockId

instance : Key BlockId :=
  Key.ofInjective (fun id => id.number.toNat) (by
    intro a b same
    cases a; cases b
    simpa [UInt32.toNat_inj] using same)

/-- The block's number. -/
def text (id : BlockId) : String := toString id.number.toNat

/-- The block as a list of blocks in a message shows it. -/
def labelled (id : BlockId) : String := "BlockId(" ++ id.text ++ ")"

/-- A list of blocks as a message shows it. -/
def listText (ids : List BlockId) : String :=
  "[" ++ ", ".intercalate (ids.map labelled) ++ "]"

end BlockId

/-- Which way out of a block a coordinate means. -/
inductive Branch where
  /-- The only way out: the single successor, or the return. -/
  | exit
  | taken
  | notTaken
deriving DecidableEq, Inhabited

namespace Branch

/-- The position of a way out among those of one block. -/
def rank : Branch → Nat
  | .exit => 0
  | .taken => 1
  | .notTaken => 2

instance : Key Branch := Key.ofInjective rank (by intro a b; cases a <;> cases b <;> simp [rank])

/-- The mark that follows the block number. -/
def mark : Branch → String
  | .exit => ""
  | .taken => "+"
  | .notTaken => "-"

end Branch

/-- The point where control leaves a block along one of its ways out. -/
structure Coord where
  block : BlockId
  branch : Branch
deriving DecidableEq, Inhabited

namespace Coord

/-- Coordinates are ordered by block, then exit, taken, not taken. -/
instance : Key Coord :=
  Key.ofInjective (fun coord => (coord.block, coord.branch)) (by
    intro a b same
    cases a; cases b
    simpa using same)

/-- The block number followed by the mark of the way out. -/
def text (coord : Coord) : String := coord.block.text ++ coord.branch.mark

end Coord

/-- A set of coordinates. -/
abbrev CoordSet := SortedSet Coord

/-- A run of instructions and the blocks that may follow it. -/
structure Block where
  id : BlockId
  instrs : List Instr
  succs : List BlockId
deriving DecidableEq

namespace Block

/-- The instruction that decides where control goes. -/
def last? (block : Block) : Option Instr := block.instrs.getLast?

/-- Whether the block ends in a two-way branch. -/
def isBranching (block : Block) : Bool := block.last?.any Instr.isBranch

/-- Whether the block ends in a return. -/
def isReturning (block : Block) : Bool := block.last?.any Instr.isReturn

/-- The number of successors the last instruction asks for; a block without instructions falls
through to one. -/
def fanOut (block : Block) : Nat := block.last?.elim 1 Instr.fanOut

/-- The ways out of the block, each with its target. The successors of a branch are the taken
target and then the other one. -/
def outEdges (block : Block) : List (Coord × BlockId) :=
  if block.isBranching then [⟨block.id, .taken⟩, ⟨block.id, .notTaken⟩].zip block.succs
  else block.succs.map fun target => (⟨block.id, .exit⟩, target)

end Block

end GotoFree
