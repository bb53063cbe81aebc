/-!
# Depth-first walks

A depth-first walk over a graph that is given by the ordered list of each node's successors. The
first successor is explored first. The order in which the walk leaves the nodes, read backwards,
is the reverse post-order: a node stands before its successors, back edges apart.
-/

namespace GotoFree

/-- The state of a depth-first walk. -/
structure Walk (α : Type) where
  /-- The nodes entered so far, the latest first. -/
  entered : List α
  /-- The nodes left so far, the latest first. -/
  left : List α

namespace Walk

variable {α : Type} [DecidableEq α]

/-- The walk before its first step. -/
def start : Walk α := ⟨[], []⟩

/-- Explores a node and all that is reached from it by nodes not entered yet. No path of distinct
nodes is longer than `depth`, the number of nodes of the graph. -/
def explore (next : α → List α) : Nat → Walk α → α → Walk α
  | 0, walk, _ => walk
  | depth + 1, walk, node =>
      if node ∈ walk.entered then walk
      else
        let inside :=
          (next node).foldl (explore next depth) { walk with entered := node :: walk.entered }
        { inside with left := node :: inside.left }

end Walk

/-- The nodes that are reached from a root, each before its successors, back edges apart. -/
def reversePostorder {α : Type} [DecidableEq α] (next : α → List α) (size : Nat) (root : α) :
    List α :=
  (Walk.start.explore next size root).left

/-- The nodes that are reached from a list of nodes, these included. -/
def reachable {α : Type} [DecidableEq α] (next : α → List α) (size : Nat) (roots : List α) :
    List α :=
  (roots.foldl (Walk.explore next size) .start).entered

end GotoFree
