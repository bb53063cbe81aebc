import GotoFree.Flow.Defect
import GotoFree.Flow.Walk
import GotoFree.SortedMap

/-!
# Block graphs

A block graph is the reachable part of a method's blocks, after a check that every block ends as
its successors say. Blocks are listed by number; their reverse post-order is kept beside them.
-/

namespace GotoFree

/-- A checked graph of blocks, all of them reached from the entry. -/
structure BlockGraph where
  entry : BlockId
  /-- The blocks by number. -/
  blocks : SortedMap BlockId Block
  /-- The blocks in reverse post-order. -/
  order : List BlockId
  /-- The blocks that were given but are not reached. -/
  dropped : List BlockId

namespace BlockGraph

/-- The first value of a list that stands in it before. -/
def firstRepeated (met : List BlockId) : List BlockId → Option BlockId
  | [] => none
  | id :: rest => if id ∈ met then some id else firstRepeated (id :: met) rest

/-- Checks that a block branches, returns or throws in its last instruction only, that it has as
many successors as that asks for, and that the successors are known. -/
def checkBlock (known : List BlockId) (block : Block) : Except GraphFault Unit := do
  if block.instrs.dropLast.any fun instr => instr.fanOut ≠ 1 then
    throw (.misplacedTerminator block.id)
  if block.succs.length ≠ block.fanOut then
    throw (.successorMismatch block.id block.fanOut block.succs.length)
  match block.succs.find? fun target => target ∉ known with
  | some target => throw (.missingSuccessor block.id target)
  | none => return ()

/-- The part of some blocks that is reached from the entry. -/
def reachedPart (entry : BlockId) (all : SortedMap BlockId Block) : BlockGraph :=
  let next (id : BlockId) : List BlockId := ((all.get? id).map Block.succs).getD []
  let order := reversePostorder next all.size entry
  { entry
    blocks := .ofList (all.entries.filter fun (id, _) => id ∈ order)
    order
    dropped := all.keys.filter fun id => id ∉ order }

/-- The graph of a list of blocks. -/
def ofBlocks (entry : BlockId) (blocks : List Block) : Except GraphFault BlockGraph := do
  if let some id := firstRepeated [] (blocks.map Block.id) then
    throw (.duplicateBlock id)
  let all : SortedMap BlockId Block := .ofList (blocks.map fun block => (block.id, block))
  if !all.contains entry then
    throw (.missingEntry entry)
  all.values.forM (checkBlock all.keys)
  return reachedPart entry all

/-- The numbers of the blocks, in increasing order. -/
def ids (graph : BlockGraph) : List BlockId := graph.blocks.keys

/-- The set of the blocks' numbers. -/
def idSet (graph : BlockGraph) : SortedSet BlockId := .ofList graph.ids

/-- The block of a number. -/
def block? (graph : BlockGraph) (id : BlockId) : Option Block := graph.blocks.get? id

/-- Checks that the graph has some blocks. -/
def requireBlocks (graph : BlockGraph) (ids : SortedSet BlockId) : Except Defect Unit :=
  match ids.toList.find? fun id => (graph.block? id).isNone with
  | some id => throw (.unknownBlock id)
  | none => return ()

/-- The edges out of a block, each with its coordinate. -/
def outEdges (graph : BlockGraph) (id : BlockId) : List (Coord × BlockId) :=
  ((graph.block? id).map Block.outEdges).getD []

/-- The blocks after a block, in order. -/
def next (graph : BlockGraph) (id : BlockId) : List BlockId := (graph.outEdges id).map Prod.snd

/-- The edges into a block by source, each with its coordinate and its source. -/
def inEdges (graph : BlockGraph) (id : BlockId) : List (Coord × BlockId) :=
  graph.blocks.values.flatMap fun block =>
    (block.outEdges.filter fun edge => edge.2 = id).map fun edge => (edge.1, block.id)

/-- The coordinates of the edges into a block, by source. -/
def inCoords (graph : BlockGraph) (id : BlockId) : List Coord := (graph.inEdges id).map Prod.fst

/-- Whether a block ends in a return. -/
def isReturning (graph : BlockGraph) (id : BlockId) : Bool :=
  (graph.block? id).any Block.isReturning

/-- Whether a block ends in a two-way branch. -/
def isBranching (graph : BlockGraph) (id : BlockId) : Bool :=
  (graph.block? id).any Block.isBranching

/-- The position of a block in the reverse post-order. -/
def position (graph : BlockGraph) (id : BlockId) : Nat := graph.order.idxOf id

/-- What is said about blocks that are not reached. -/
def warnings (graph : BlockGraph) : List String :=
  if graph.dropped.isEmpty then []
  else ["dropping unreachable blocks " ++ BlockId.listText graph.dropped]

end BlockGraph

end GotoFree
