import GotoFree.Flow.Region
import GotoFree.Flow.Tree

/-!
# Structuring a block graph

Each region of a graph becomes a tree along its dominator tree. A block whose only incoming edge is
an arm of its immediate dominator is nested in that arm; every other node follows the node it hangs
under, in reverse post-order. The entries of a region with several of them become the alternatives
of a merge. A loop becomes a node around the tree of its body.
-/

namespace GotoFree

/-- A structured method. -/
structure Structured where
  root : Tree
  /-- The coordinates that run their own loop again. -/
  recursing : CoordSet
  forest : LoopForest

/-- What is known where the vertices of a region are put together. -/
structure Site where
  graph : BlockGraph
  forest : LoopForest
  view : Region.View
  /-- The trees of the loops directly nested in the region, by their numbers. -/
  loops : List (Nat × Tree)

namespace Site

/-- The nodes that the subtrees under a vertex have become. -/
abbrev Placed := List (Vertex × List Tree)

/-- What an edge means in the region. -/
def wayOut (site : Site) (coord : Coord) (target : BlockId) : Jumps :=
  match site.forest.continued? coord.block target with
  | some loop => .ofContinue coord loop.head
  | none =>
      if target ∈ site.view.region.blocks then .ofFlow coord target else .ofBreak coord target

/-- The nodes that an arm holds: those of its target, if the target is a block of the region itself
under the branching block and the arm is the only edge into it. -/
def nestable? (site : Site) (placed : Placed) (target : BlockId) : Option (List Tree) :=
  if target ∉ site.view.region.entries && site.view.degree (.block target) = 1 then
    placed.lookup (.block target)
  else none

/-- The arm of a conditional along a coordinate. -/
def arm (site : Site) (placed : Placed) (coord : Coord) (target : BlockId) :
    Except Defect Arm :=
  match site.nestable? placed target with
  | some elems => do return .nested (← Tree.ofSequence elems)
  | none => return .jump coord (site.wayOut coord target)

/-- The subtrees that no arm holds. -/
def following (site : Site) (placed : Placed) (targets : List BlockId) : List Tree :=
  (placed.filter fun entry => targets.all fun target =>
    entry.1 ≠ .block target || (site.nestable? placed target).isNone).flatMap Prod.snd

/-- The nodes of a block and of the subtrees under it. -/
def block (site : Site) (placed : Placed) (id : BlockId) : Except Defect (List Tree) := do
  site.graph.requireBlocks (.singleton id)
  match site.graph.outEdges id with
  | [(taken, takenTarget), (notTaken, notTakenTarget)] => do
      let takenArm ← site.arm placed taken takenTarget
      let notTakenArm ← site.arm placed notTaken notTakenTarget
      let jumps := takenArm.jumps.union notTakenArm.jumps
      return .conditional ⟨id, jumps, .none⟩ takenArm notTakenArm ::
        site.following placed [takenTarget, notTakenTarget]
  | edges =>
      let coord : Coord := ⟨id, .exit⟩
      let jumps := match edges.head? with
        | some (_, target) => site.wayOut coord target
        | none => if site.graph.isReturning id then .ofReturn coord else .none
      return .jump ⟨id, jumps, .none⟩ coord :: site.following placed []

/-- The merge of a region's entries and the nodes of the other subtrees. -/
def merge (site : Site) (placed : Placed) : Except Defect (List Tree) := do
  let entries := site.view.region.entries.toList
  let alternatives ← entries.mapM fun entry =>
    Tree.ofSequence ((placed.lookup (.block entry)).getD [])
  let incoming : Incoming := .ofList (entries.map fun entry =>
    (entry, .ofList (site.graph.inCoords entry)))
  let jumps := alternatives.foldl (fun jumps tree => jumps.union tree.jumps) Jumps.none
  let others := placed.filter fun entry => entries.all fun id => entry.1 ≠ .block id
  return .merge ⟨entries.headD default, jumps, .none⟩ alternatives incoming ::
    others.flatMap Prod.snd

/-- The nodes of a vertex and of the subtrees under it. -/
def assemble (site : Site) (placed : Placed) : Vertex → Except Defect (List Tree)
  | .root => site.merge placed
  | .block id => site.block placed id
  | .loop id =>
      match site.loops.lookup id with
      | some tree => return tree :: site.following placed []
      | none => throw (.unknownLoop id)

mutual

/-- The nodes of a dominator subtree, to be run in order. -/
def place (site : Site) : Rose Vertex → Except Defect (List Tree)
  | .node vertex children => do site.assemble (← placeAll site children) vertex

/-- The nodes of the dominator subtrees under one vertex. -/
def placeAll (site : Site) : List (Rose Vertex) → Except Defect Placed
  | [] => return []
  | tree :: rest => do
      let nodes ← place site tree
      return (tree.value, nodes) :: (← placeAll site rest)

end

/-- The tree of the whole region. -/
def tree (site : Site) : Except Defect Tree := do
  Tree.ofSequence (← site.place site.view.rooted.dominatorTree)

end Site

/-- The coordinates in the body of a loop that run the loop again. A continue that is made inside a
nested loop is left to the code after that loop. -/
def ownContinues (forest : LoopForest) (loop : Loop) (body : Tree) : CoordSet :=
  .ofList ((body.jumps.continues.toList.filter fun (coord, head) =>
    head = loop.head && (forest.innermost? coord.block).any fun inner => inner.id = loop.id).map
      Prod.fst)

/-- The ways out of a loop, given those out of its body. An exit whose target lies in the region
around the loop is plain flow there. -/
def loopJumps (around : Option Loop) (loop : Loop) (body : Jumps) : Jumps :=
  let stays (target : BlockId) : Bool := around.all fun outer => target ∈ outer.body
  { flow := .ofList (body.breaks.entries.filter fun edge => stays edge.2)
    breaks := .ofList (body.breaks.entries.filter fun edge => !stays edge.2)
    continues := body.continues.filter fun edge => edge.2 ≠ loop.head
    returns := body.returns }

mutual

/-- The tree of a loop with the coordinates in it that run their own loop again. -/
def Loop.toTree (graph : BlockGraph) (forest : LoopForest) (around : Option Loop) :
    Loop → Except Obstacle (Tree × CoordSet)
  | loop@⟨_, head, entries, _, inner⟩ => do
      let view ← (Region.ofLoop loop).view graph
      let (loops, recursing) ← Loop.toTrees graph forest (some loop) inner
      let body ← liftDefect (Site.tree ⟨graph, forest, view, loops⟩)
      if !body.jumps.flow.isEmpty then
        throw (.defect (.flowOutOfLoop head))
      return (.loop ⟨head, loopJumps around loop body.jumps, .none⟩ entries body,
        recursing.union (ownContinues forest loop body))

/-- The trees of the loops directly nested in a region, by their numbers. -/
def Loop.toTrees (graph : BlockGraph) (forest : LoopForest) (around : Option Loop) :
    List Loop → Except Obstacle (List (Nat × Tree) × CoordSet)
  | [] => return ([], .empty)
  | loop@⟨id, _, _, _, _⟩ :: rest => do
      let (tree, own) ← Loop.toTree graph forest around loop
      let (trees, others) ← Loop.toTrees graph forest around rest
      return ((id, tree) :: trees, own.union others)

end

/-- Structures a block graph. -/
def BlockGraph.toStructured (graph : BlockGraph) : Except Obstacle Structured := do
  let forest ← liftDefect (LoopForest.ofGraph graph)
  let view ← (Region.ofMethod graph forest).view graph
  let (loops, recursing) ← Loop.toTrees graph forest none forest.top
  let root ← liftDefect (Site.tree ⟨graph, forest, view, loops⟩)
  let placed := root.blocks
  match graph.ids.filter fun id => id ∉ placed with
  | [] =>
      if root.jumps.leavesLoop then throw (.defect .escapingExits)
      else return ⟨root, recursing, forest⟩
  | unplaced => throw (.graph (.unplacedBlocks unplaced))

end GotoFree
