import GotoFree.Flow.Defect
import GotoFree.Flow.Jumps

/-!
# Structured methods

A structured method is a tree: blocks that are left in one way, two-way conditionals whose arms may
hold the part they lead to, sequences, loops, and merges whose alternatives are entered at
different blocks. Each node knows the block it starts with and the ways out of it, and may carry
notes for the code that is made from it.
-/

namespace GotoFree

/-- Which coordinates lead to which block. -/
abbrev Incoming := SortedMap BlockId CoordSet

/-- What the flags of a method say about one node. -/
structure Notes where
  /-- The node is run only if one of these coordinates was recorded last. -/
  gateOn : Option CoordSet
  /-- The recorded coordinates that select the alternatives of a merge. -/
  chooseBy : Option Incoming
  /-- After a loop, recorded coordinates that run the enclosing loop again. -/
  recurseOn : Option CoordSet
  /-- After a loop, recorded coordinates that leave the enclosing function. -/
  returnOn : Option CoordSet
  /-- Whether a loop holds a return and hands back a value. -/
  valueLoop : Option Bool
deriving DecidableEq

namespace Notes

/-- No notes. -/
def none : Notes := ⟨.none, .none, .none, .none, .none⟩

instance : Inhabited Notes := ⟨none⟩

/-- The number of notes. -/
def count (notes : Notes) : Nat :=
  notes.gateOn.toList.length + notes.chooseBy.toList.length + notes.recurseOn.toList.length +
    notes.returnOn.toList.length + notes.valueLoop.toList.length

/-- Whether there is no note. -/
def isEmpty (notes : Notes) : Bool := notes.count = 0

/-- The number of notes as messages show it. -/
def summary (notes : Notes) : String := "Annotations(" ++ toString notes.count ++ " entries)"

end Notes

/-- What every node of a structured method knows. -/
structure Label where
  /-- The block the node starts with. -/
  head : BlockId
  /-- The ways out of the node. -/
  jumps : Jumps
  notes : Notes
deriving Inhabited

mutual

/-- A part of a structured method. -/
inductive Tree where
  /-- A block that is left along one coordinate. -/
  | jump (label : Label) (coord : Coord)
  /-- A block that ends in a two-way branch. -/
  | conditional (label : Label) (taken notTaken : Arm)
  | sequence (label : Label) (elems : List Tree)
  | loop (label : Label) (entries : SortedSet BlockId) (body : Tree)
  /-- Parts of which one is run, selected by the coordinate along which control came. -/
  | merge (label : Label) (alternatives : List Tree) (incoming : Incoming)

/-- An arm of a conditional. -/
inductive Arm where
  /-- Control leaves the conditional. -/
  | jump (coord : Coord) (jumps : Jumps)
  /-- The part that the arm leads to, and that nothing else leads to. -/
  | nested (tree : Tree)

end

namespace Tree

/-- What the node knows. -/
def label : Tree → Label
  | jump label _ | conditional label _ _ | sequence label _ | loop label _ _ | merge label _ _ =>
      label

/-- The block the node starts with. -/
def head (tree : Tree) : BlockId := tree.label.head

/-- The ways out of the node. -/
def jumps (tree : Tree) : Jumps := tree.label.jumps

/-- The notes of the node. -/
def notes (tree : Tree) : Notes := tree.label.notes

/-- The node with a changed label. -/
def relabel (change : Label → Label) : Tree → Tree
  | jump label coord => jump (change label) coord
  | conditional label taken notTaken => conditional (change label) taken notTaken
  | sequence label elems => sequence (change label) elems
  | loop label entries body => loop (change label) entries body
  | merge label alternatives incoming => merge (change label) alternatives incoming

/-- The node with changed notes. -/
def annotate (tree : Tree) (change : Notes → Notes) : Tree :=
  tree.relabel fun label => { label with notes := change label.notes }

/-- Whether the node is a loop. -/
def isLoop : Tree → Bool
  | loop .. => true
  | _ => false

mutual

/-- The blocks through which control enters the node. -/
def heads : Tree → SortedSet BlockId
  | sequence _ [] => .empty
  | sequence _ (first :: _) => first.heads
  | loop _ entries _ => entries
  | merge _ alternatives _ => headsOfAll alternatives
  | jump label _ | conditional label _ _ => .singleton label.head

/-- The blocks through which control enters one of the nodes. -/
def headsOfAll : List Tree → SortedSet BlockId
  | [] => .empty
  | tree :: rest => (headsOfAll rest).union tree.heads

end

mutual

/-- Whether the node is entered through a sequence without elements. -/
def isHeadless : Tree → Bool
  | sequence _ [] => true
  | sequence _ (first :: _) => first.isHeadless
  | merge _ alternatives _ => anyHeadless alternatives
  | loop .. | jump .. | conditional .. => false

/-- Whether one of the nodes is entered through a sequence without elements. -/
def anyHeadless : List Tree → Bool
  | [] => false
  | tree :: rest => tree.isHeadless || anyHeadless rest

end

end Tree

/-- The ways out of an arm. -/
def Arm.jumps : Arm → Jumps
  | .jump _ jumps => jumps
  | .nested tree => tree.jumps

namespace Tree

mutual

/-- The node and all nodes in it, each before the ones in it. -/
def nodes : Tree → List Tree
  | tree@(jump ..) => [tree]
  | tree@(conditional _ taken notTaken) => tree :: nodesOfArm taken ++ nodesOfArm notTaken
  | tree@(sequence _ elems) => tree :: nodesOfAll elems
  | tree@(loop _ _ body) => tree :: body.nodes
  | tree@(merge _ alternatives _) => tree :: nodesOfAll alternatives

/-- The nodes in an arm. -/
def nodesOfArm : Arm → List Tree
  | .jump .. => []
  | .nested tree => tree.nodes

/-- The nodes of a list and all nodes in them. -/
def nodesOfAll : List Tree → List Tree
  | [] => []
  | tree :: rest => tree.nodes ++ nodesOfAll rest

end

/-- The block of a node that stands for one. -/
def ownBlock? : Tree → Option BlockId
  | jump label _ | conditional label _ _ => some label.head
  | sequence .. | loop .. | merge .. => none

/-- The blocks that have a node in the tree. -/
def blocks (tree : Tree) : List BlockId := tree.nodes.filterMap ownBlock?

/-! ## Sequences -/

/-- The elements of a list in which sequences without notes are replaced by their own elements. -/
def splice (elems : List Tree) : List Tree :=
  elems.flatMap fun
    | tree@(sequence label inner) => if label.notes.isEmpty then inner else [tree]
    | tree => [tree]

/-- The ways out of an element that some later ones follow: flow to the head of a later element
stays inside. -/
def jumpsBefore (tree : Tree) (later : SortedSet BlockId) : Jumps :=
  { tree.jumps with flow := tree.jumps.flow.filter fun edge => edge.2 ∉ later }

/-- The ways out of a list of elements that are run in order, and their heads. -/
def sequenceEnds : List Tree → Jumps × SortedSet BlockId
  | [] => (.none, .empty)
  | tree :: rest =>
      let (jumps, later) := sequenceEnds rest
      ((tree.jumpsBefore later).union jumps, later.union tree.heads)

/-- The ways out of a list of elements that are run in order. -/
def sequenceJumps (elems : List Tree) : Jumps := (sequenceEnds elems).1

/-- The node that runs a list of elements in order. A single element stands for itself. -/
def ofSequence (elems : List Tree) : Except Defect Tree :=
  match splice elems with
  | [] => throw .emptySequence
  | [only] => return only
  | first :: rest =>
      if anyHeadless rest then throw .headlessSequence
      else return sequence ⟨first.head, sequenceJumps (first :: rest), .none⟩ (first :: rest)

/-! ## Text -/

/-- The coordinates of a gate as they follow a node. -/
def gateText (notes : Notes) : String :=
  match notes.gateOn with
  | none => ""
  | some coords =>
      " gate[" ++ ", ".intercalate (coords.toList.map fun coord => "\"" ++ coord.text ++ "\"")
        ++ "]"

/-- The blanks before a line at a depth. -/
def indent (depth : Nat) : String := "".pushn ' ' (2 * depth)

mutual

/-- The lines of a node at a depth. -/
def textAt (depth : Nat) : Tree → String
  | jump label coord => indent depth ++ "jump " ++ coord.text ++ gateText label.notes ++ "\n"
  | conditional label taken notTaken =>
      indent depth ++ "cond " ++ label.head.text ++ gateText label.notes ++ "\n"
        ++ armText depth "+" taken ++ armText depth "-" notTaken
  | sequence label elems =>
      indent depth ++ "seq" ++ gateText label.notes ++ "\n" ++ textOfAll (depth + 1) elems
  | loop label _ body =>
      indent depth ++ "loop " ++ label.head.text ++ gateText label.notes ++ "\n"
        ++ body.textAt (depth + 1)
  | merge label alternatives _ =>
      indent depth ++ "merge" ++ gateText label.notes ++ "\n" ++ textOfAll (depth + 1) alternatives

/-- The lines of an arm under a conditional at a depth. -/
def armText (depth : Nat) (mark : String) : Arm → String
  | .jump coord _ => indent depth ++ "  " ++ mark ++ " jump " ++ coord.text ++ "\n"
  | .nested tree => indent depth ++ "  " ++ mark ++ "\n" ++ tree.textAt (depth + 2)

/-- The lines of a list of nodes at a depth. -/
def textOfAll (depth : Nat) : List Tree → String
  | [] => ""
  | tree :: rest => tree.textAt depth ++ textOfAll depth rest

end

/-- The tree as indented lines. -/
def text (tree : Tree) : String := tree.textAt 0

end Tree

end GotoFree
