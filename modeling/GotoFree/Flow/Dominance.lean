import GotoFree.Flow.Walk

/-!
# Dominator trees

A node dominates another one if every path from the root to it passes the first, that is, if the
other is out of reach once the first is taken away. Among the other dominators of a node the
immediate one is the nearest, which is the last of them in reverse post-order; the nodes hang under
their immediate dominators in a tree.
-/

namespace GotoFree

/-- A node of a tree with the trees under it, in their order. -/
inductive Rose (α : Type) where
  | node (value : α) (children : List (Rose α))

namespace Rose

/-- The node at the top. -/
def value {α : Type} : Rose α → α
  | node value _ => value

/-- The trees under the top. -/
def children {α : Type} : Rose α → List (Rose α)
  | node _ children => children

end Rose

variable {α : Type} [DecidableEq α]

/-- A rooted graph with the nodes that are reached from the root, in reverse post-order. -/
structure Rooted (α : Type) where
  next : α → List α
  root : α
  order : List α

namespace Rooted

/-- The part of a graph that is reached from a root; `size` is the number of nodes. -/
def ofRoot (next : α → List α) (size : Nat) (root : α) : Rooted α :=
  ⟨next, root, reversePostorder next size root⟩

/-- The nodes that are reached without passing a certain one. -/
def reachedWithout (graph : Rooted α) (avoided : α) : List α :=
  if graph.root = avoided then []
  else reachable (fun node => (graph.next node).filter (· ≠ avoided)) graph.order.length
    [graph.root]

/-- The other nodes that a node dominates. -/
def dominated (graph : Rooted α) (node : α) : List α :=
  let reached := graph.reachedWithout node
  graph.order.filter fun other => other ≠ node && other ∉ reached

/-- Each node with its immediate dominator; the root has none. -/
def immediateDominators (graph : Rooted α) : List (α × α) :=
  let below := graph.order.map fun node => (node, graph.dominated node)
  graph.order.filterMap fun node =>
    ((below.filter fun entry => node ∈ entry.2).getLast?).map fun entry => (node, entry.1)

/-- The tree of a node's dominator subtree, given each node's immediate dominator. No branch is
longer than `height`. -/
def subtree (order : List α) (idom : List (α × α)) : Nat → α → Rose α
  | 0, node => .node node []
  | height + 1, node =>
      .node node ((order.filter fun other => idom.lookup other = some node).map
        (subtree order idom height))

/-- The dominator tree. The nodes under one node stand in reverse post-order. -/
def dominatorTree (graph : Rooted α) : Rose α :=
  subtree graph.order graph.immediateDominators graph.order.length graph.root

end Rooted

end GotoFree
