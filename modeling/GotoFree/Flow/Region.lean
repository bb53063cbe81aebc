import GotoFree.Flow.Dominance
import GotoFree.Flow.Loops

/-!
# Regions

The body of a method and the body of each loop are regions. In the acyclic view of a region the
loops directly nested in it are single vertices, and the edges to the region's own entries are
left out; a region with several entries gets a root above them. The dominator tree of this view
says how the region is put together.
-/

namespace GotoFree

/-- A vertex of the acyclic view of a region. -/
inductive Vertex where
  /-- The root above several entries. -/
  | root
  | block (id : BlockId)
  /-- A loop directly nested in the region, by its number. -/
  | loop (id : Nat)
deriving DecidableEq

/-- The body of a method or of a loop. -/
structure Region where
  blocks : SortedSet BlockId
  entries : SortedSet BlockId
  /-- The loops directly nested in the region. -/
  inner : List Loop

namespace Region

/-- The whole body of a method. -/
def ofMethod (graph : BlockGraph) (forest : LoopForest) : Region :=
  ⟨graph.idSet, .singleton graph.entry, forest.top⟩

/-- The body of a loop. -/
def ofLoop (loop : Loop) : Region := ⟨loop.body, loop.entries, loop.inner⟩

/-- The vertex of a block: the nested loop that holds it, or itself. -/
def vertexOf (region : Region) (id : BlockId) : Vertex :=
  match region.inner.find? fun loop => id ∈ loop.body with
  | some loop => .loop loop.id
  | none => .block id

/-- The vertex from which all others are reached. -/
def top (region : Region) : Vertex :=
  match region.entries.toList with
  | [entry] => region.vertexOf entry
  | _ => .root

/-- The links from the root to the entries, if there is a root. -/
def rootLinks (region : Region) : List (Vertex × Vertex) :=
  if region.top = .root then region.entries.toList.map fun entry => (.root, .block entry) else []

/-- The edges between the vertices of the region, those to its entries left out, by source. -/
def crossings (region : Region) (graph : BlockGraph) : List (Coord × BlockId) :=
  region.blocks.toList.flatMap fun source =>
    (graph.outEdges source).filter fun (_, target) =>
      target ∈ region.blocks && target ∉ region.entries &&
        region.vertexOf source ≠ region.vertexOf target

/-- The links that the edges of the graph make, by source block. -/
def blockLinks (region : Region) (graph : BlockGraph) : List (Vertex × Vertex) :=
  (region.crossings graph).map fun (coord, target) =>
    (region.vertexOf coord.block, region.vertexOf target)

/-- The vertices that the links of the view lead to from a vertex, in the order of the links. -/
def next (region : Region) (graph : BlockGraph) (vertex : Vertex) : List Vertex :=
  ((region.rootLinks ++ region.blockLinks graph).filter fun link => link.1 = vertex).map Prod.snd

/-- The part of the view that is reached from its top. -/
def rooted (region : Region) (graph : BlockGraph) : Rooted Vertex :=
  .ofRoot (region.next graph) (region.blocks.size + 1) region.top

/-- The acyclic view of a region with the number of edges into each vertex. -/
structure View where
  region : Region
  /-- The reached part with its dominator tree. -/
  rooted : Rooted Vertex
  /-- The links that edges of the graph make. -/
  links : List (Vertex × Vertex)

/-- Checks that a region that gets a root has entries, all of them vertices of its view. -/
def requireEntries (region : Region) : Except Defect Unit :=
  if region.top = .root then
    if region.entries.isEmpty then throw .regionWithoutEntry
    else match region.entries.toList.find? fun entry =>
        entry ∉ region.blocks || region.vertexOf entry ≠ .block entry with
      | some entry => throw (.entryWithoutVertex entry)
      | none => return ()
  else return ()

/-- The acyclic view of a region. Every block has to be reached in it. -/
def view (region : Region) (graph : BlockGraph) : Except Obstacle View := do
  liftDefect (graph.requireBlocks region.blocks)
  liftDefect region.requireEntries
  let rooted := region.rooted graph
  match region.blocks.toList.filter fun id => region.vertexOf id ∉ rooted.order with
  | [] => return ⟨region, rooted, region.blockLinks graph⟩
  | unreached => throw (.graph (.unplacedBlocks unreached))

/-- The number of edges into a vertex. -/
def View.degree (view : View) (vertex : Vertex) : Nat :=
  (view.links.filter fun link => link.2 = vertex).length

end Region

end GotoFree
