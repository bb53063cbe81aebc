import GotoFree.Flow.Graph

/-!
# The loop forest

The loops of a region are its strongly connected parts that hold a cycle. A block of a loop that is
entered from outside is one of its entries, and an edge inside the loop to an entry continues the
loop. With these edges cut, the parts of the body that still hold a cycle are the loops nested in
it. A loop with several entries is irreducible; its least entry names it.

A returning block that is entered from one loop only belongs to that loop, so the return is made
where the loop is run.
-/

namespace GotoFree

/-- A loop with the loops nested in it. -/
structure Loop where
  /-- The position of the loop when each is listed before the ones nested in it. -/
  id : Nat
  /-- The least entry. -/
  head : BlockId
  entries : SortedSet BlockId
  body : SortedSet BlockId
  inner : List Loop

namespace Loop

mutual

/-- A loop and all loops in it, each before the ones nested in it. -/
def flatten : Loop → List Loop
  | loop@⟨_, _, _, _, inner⟩ => loop :: flattenAll inner

/-- The loops of a list and all loops in them. -/
def flattenAll : List Loop → List Loop
  | [] => []
  | loop :: rest => loop.flatten ++ flattenAll rest

end

/-- Whether the loop is entered through several blocks. -/
def isIrreducible (loop : Loop) : Bool := 1 < loop.entries.size

end Loop

/-- The loops of a graph that lie in no other, by least block. -/
structure LoopForest where
  top : List Loop

/-- The part of a region whose blocks a block reaches, and from which it is reached, by at least one
edge each way. There is none if the block lies on no cycle. -/
def cyclicPart? (next before : BlockId → List BlockId) (region : List BlockId) (id : BlockId) :
    Option (List BlockId) :=
  let after := reachable next region.length (next id)
  if id ∈ after then
    let ahead := reachable before region.length (before id)
    some (region.filter fun other => other ∈ after && other ∈ ahead)
  else none

/-- The parts of a region in which each block reaches all blocks, itself included, by at least one
edge; listed by least block. -/
def cyclicParts (next before : BlockId → List BlockId) (region : List BlockId) :
    List (List BlockId) :=
  region.foldl (fun parts id =>
    if parts.any (id ∈ ·) then parts
    else parts ++ (cyclicPart? next before region id).toList) []

/-- The edges between blocks of a region but for those to some blocks, as source and target. -/
def innerEdges (graph : BlockGraph) (region cut : SortedSet BlockId) : List (BlockId × BlockId) :=
  region.toList.flatMap fun id =>
    ((graph.next id).filter fun target => target ∈ region && target ∉ cut).map fun target =>
      (id, target)

/-- The targets of the edges from a block. -/
def targetsFrom (edges : List (BlockId × BlockId)) (id : BlockId) : List BlockId :=
  edges.filterMap fun edge => if edge.1 = id then some edge.2 else none

/-- The sources of the edges to a block. -/
def sourcesTo (edges : List (BlockId × BlockId)) (id : BlockId) : List BlockId :=
  edges.filterMap fun edge => if edge.2 = id then some edge.1 else none

/-- The blocks of a region outside a loop that end in a return and are entered from the loop
alone. -/
def returningTails (graph : BlockGraph) (region body : SortedSet BlockId) : List BlockId :=
  region.toList.filter fun id =>
    let sources := (graph.inCoords id).map Coord.block
    id ∉ body && id ≠ graph.entry && graph.isReturning id &&
      !sources.isEmpty && sources.all (· ∈ body)

/-- The body of the loop around a cyclic part of a region. -/
def bodyOf (graph : BlockGraph) (region : SortedSet BlockId) (part : List BlockId) :
    SortedSet BlockId :=
  let core := SortedSet.ofList part
  core.union (.ofList (returningTails graph region core))

/-- The blocks of a loop that are entered from outside. -/
def entriesOf (graph : BlockGraph) (body : SortedSet BlockId) : SortedSet BlockId :=
  body.filter fun id =>
    id = graph.entry || (graph.inCoords id).any fun coord => coord.block ∉ body

/-- Adds the loop with a body to the loops found before it; the next number is kept beside them.
The loops nested in it are left to a search for the loops of a region without the edges to some
blocks. -/
def addLoop (graph : BlockGraph)
    (search : SortedSet BlockId → SortedSet BlockId → Nat → Except Defect (List Loop × Nat))
    (found : List Loop × Nat) (body : SortedSet BlockId) : Except Defect (List Loop × Nat) :=
  let entries := entriesOf graph body
  match entries.min? with
  | none => throw .loopWithoutEntry
  | some head => do
      let (inner, after) ← search body entries (found.2 + 1)
      return (found.1 ++ [⟨found.2, head, entries, body, inner⟩], after)

/-- Finds the loops of a region in which the edges to the blocks of `cut` are taken away, and the
loops nested in them. Loops are numbered from `next` on; the answer also has the number after the
last one. Each loop has an entry that the loops nested in it do not have, so no nesting is deeper
than the number of blocks. -/
def findLoops (graph : BlockGraph) :
    Nat → (region cut : SortedSet BlockId) → (next : Nat) → Except Defect (List Loop × Nat)
  | 0, _, _, next => return ([], next)
  | depth + 1, region, cut, next => do
      graph.requireBlocks region
      let edges := innerEdges graph region cut
      let parts := cyclicParts (targetsFrom edges) (sourcesTo edges) region.toList
      (parts.map (bodyOf graph region)).foldlM (addLoop graph (findLoops graph depth)) ([], next)

namespace LoopForest

/-- The loops of a graph. -/
def ofGraph (graph : BlockGraph) : Except Defect LoopForest := do
  let (top, _) ← findLoops graph (graph.ids.length + 1) graph.idSet .empty 0
  return ⟨top⟩

/-- All loops, each before the ones nested in it. -/
def all (forest : LoopForest) : List Loop := Loop.flattenAll forest.top

/-- The loops whose body holds a block, outermost first. -/
def around (forest : LoopForest) (id : BlockId) : List Loop :=
  forest.all.filter fun loop => id ∈ loop.body

/-- The innermost loop whose body holds a block. -/
def innermost? (forest : LoopForest) (id : BlockId) : Option Loop := (forest.around id).getLast?

/-- The loop that a block is an entry of. -/
def enteredBy? (forest : LoopForest) (id : BlockId) : Option Loop :=
  (forest.all.filter fun loop => id ∈ loop.entries).getLast?

/-- The loop that an edge continues: it leads from the loop's body to one of its entries. -/
def continued? (forest : LoopForest) (source target : BlockId) : Option Loop :=
  (forest.enteredBy? target).filter fun loop => source ∈ loop.body

/-- The loops directly nested in a loop, or those in no other. -/
def inside (forest : LoopForest) : Option Loop → List Loop
  | some loop => loop.inner
  | none => forest.top

/-- The loop in which a loop is directly nested. -/
def parent? (forest : LoopForest) (loop : Loop) : Option Loop :=
  forest.all.find? fun outer => outer.inner.any fun inner => inner.id = loop.id

/-- Climbs from a loop to the loops around it, up to the one that is directly nested in a region. A
loop has a larger number than the loop around it, so no climb is longer than the first number. -/
def climb (forest : LoopForest) (region : Option Loop) : Nat → Loop → Option Loop
  | 0, _ => none
  | steps + 1, loop =>
      let outer := forest.parent? loop
      if outer.map Loop.id = region.map Loop.id then some loop
      else outer.bind (climb forest region steps)

/-- The loop directly nested in a region, a loop or the whole, whose body holds a block. -/
def childHolding? (forest : LoopForest) (region : Option Loop) (id : BlockId) : Option Loop :=
  (forest.innermost? id).bind fun loop => forest.climb region (loop.id + 1) loop

end LoopForest

end GotoFree
