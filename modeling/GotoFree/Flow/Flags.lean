import GotoFree.Flow.Tree

/-!
# Flags

Running a tree loses the edge along which control came to a node. Where that edge matters - an
element of a sequence that may be passed over, a merge that selects an alternative, the code after
a loop that goes on with an enclosing one - the jumps that lead there record their coordinate in a
control cell, and the node gets a note of the coordinates it waits for.
-/

namespace GotoFree

/-- What the jumps of a method have to do besides jumping. -/
structure Flags where
  /-- Jumps that record their coordinate in the control cell. -/
  recorded : CoordSet
  /-- Jumps that leave the function of the loop they are in. -/
  leaving : CoordSet
  /-- Jumps that run their own loop again. -/
  recursing : CoordSet
deriving DecidableEq

namespace Flags

/-- No flags. -/
def none : Flags := ⟨.empty, .empty, .empty⟩

/-- The flags of two parts together. -/
def union (left right : Flags) : Flags where
  recorded := left.recorded.union right.recorded
  leaving := left.leaving.union right.leaving
  recursing := left.recursing.union right.recursing

/-- Jumps that record their coordinate. -/
def ofRecorded (coords : CoordSet) : Flags := { none with recorded := coords }

/-- Jumps that leave the function of their loop. -/
def ofLeaving (coords : CoordSet) : Flags := { none with leaving := coords }

/-- Whether a jump needs any code. -/
def needsCode (flags : Flags) (coord : Coord) : Bool :=
  coord ∈ flags.recorded || coord ∈ flags.leaving || coord ∈ flags.recursing

end Flags

/-! ## Gates -/

/-- The coordinates on their way to each block. -/
abbrev Pending := Incoming

namespace Pending

/-- Adds the plain edges of a node. -/
def addFlow (pending : Pending) (jumps : Jumps) : Pending :=
  jumps.flow.toList.foldl (fun pending (coord, target) =>
    pending.insert target (((pending.get? target).getD .empty).insert coord)) pending

/-- All coordinates on their way. -/
def coords (pending : Pending) : CoordSet := .unionAll pending.values

/-- The coordinates on their way to one of some blocks. -/
def reaching (pending : Pending) (heads : SortedSet BlockId) : CoordSet :=
  .unionAll (heads.toList.filterMap pending.get?)

/-- Whether everything on its way leads to one of some blocks. -/
def leadsTo (pending : Pending) (heads : SortedSet BlockId) : Bool :=
  pending.keys.all (· ∈ heads)

end Pending

/-- Puts a gate on every element that control may pass over, given what is on its way to the
elements. The control cell is shared with the functions of nested loops, so all jumps that are on
their way when a gate is read record their coordinates, also those that pass over the element. -/
def gateElements (pending : Pending) : List Tree → Except Defect (List Tree × CoordSet)
  | [] => return ([], .empty)
  | tree :: rest => do
      if tree.isHeadless then
        throw .headlessSequence
      let heads := tree.heads
      let reaching := pending.reaching heads
      if reaching.isEmpty then
        throw (.unreachedElement tree.head)
      let uniform := pending.leadsTo heads
      let gated := if uniform then tree
        else tree.annotate fun notes => { notes with gateOn := some reaching }
      let gateCoords : CoordSet := if uniform then .empty else pending.coords
      let mergeCoords : CoordSet := if 1 < heads.size then reaching else .empty
      let left := heads.toList.foldl SortedMap.erase pending
      let (others, recorded) ← gateElements (Pending.addFlow left tree.jumps) rest
      return (gated :: others, (gateCoords.union mergeCoords).union recorded)

/-- Puts gates on the elements of a sequence; the first one never has any. -/
def gateAllButFirst : List Tree → Except Defect (List Tree × CoordSet)
  | [] => return ([], .empty)
  | first :: rest => do
      let (others, recorded) ← gateElements (Pending.addFlow .empty first.jumps) rest
      return (first :: others, recorded)

/-! ## Marking a tree -/

/-- The exits of a loop after which the enclosing loop is run again. -/
def recursingExits (jumps : Jumps) (around : Option BlockId) : CoordSet :=
  .ofList ((jumps.continues.toList.filter fun (_, head) => some head = around).map Prod.fst)

/-- The exits of a loop after which the enclosing function is left. -/
def leavingExits (jumps : Jumps) (around : Option BlockId) : CoordSet :=
  .ofList ((jumps.continues.toList.filter fun (_, head) => some head ≠ around).map Prod.fst ++
    jumps.breaks.keys ++ jumps.returns.toList)

/-- The notes of a loop. -/
def loopNotes (jumps : Jumps) (around : Option BlockId) (notes : Notes) : Notes :=
  { notes with
    recurseOn := some (recursingExits jumps around)
    returnOn := some (leavingExits jumps around)
    valueLoop := some (!jumps.returns.isEmpty) }

/-- The flags of a node's own ways out, given the head of the innermost loop around it. -/
def ownFlags (recursing : CoordSet) (around : Option BlockId) (tree : Tree) :
    Except Defect Flags := do
  let jumps := tree.jumps
  let exits := jumps.breakCoords
  match around with
  | none =>
      if jumps.leavesLoop then throw (.exitOutsideLoop tree.head)
      else return .none
  | some _ =>
      let continues := if tree.isLoop then jumps.continues.toList.map Prod.fst else []
      match continues.find? (· ∈ recursing) with
      | some coord => throw (.recursesAndEscapes coord)
      | none =>
          let escaping := exits.union (.ofList continues)
          return { recorded := jumps.returns.union escaping, leaving := escaping,
                   recursing := .empty }

mutual

/-- Marks a tree with the notes its flags ask for, given the coordinates that run their own loop
again and the head of the innermost loop around the tree. -/
def Tree.mark (recursing : CoordSet) (around : Option BlockId) :
    Tree → Except Defect (Tree × Flags)
  | tree@(.jump ..) => do return (tree, ← ownFlags recursing around tree)
  | tree@(.conditional label taken notTaken) => do
      let (taken, takenFlags) ← Tree.markArm recursing around taken
      let (notTaken, notTakenFlags) ← Tree.markArm recursing around notTaken
      let own ← ownFlags recursing around tree
      return (.conditional label taken notTaken, (takenFlags.union notTakenFlags).union own)
  | tree@(.sequence label elems) => do
      let (elems, inner) ← Tree.markAll recursing around elems
      let (gated, recorded) ← gateAllButFirst elems
      let own ← ownFlags recursing around tree
      return (.sequence label gated, (inner.union (.ofRecorded recorded)).union own)
  | tree@(.loop label entries body) => do
      let (body, inner) ← Tree.mark recursing (some label.head) body
      let own ← ownFlags recursing around tree
      let label := { label with notes := loopNotes label.jumps around label.notes }
      return (.loop label entries body, inner.union own)
  | tree@(.merge label alternatives incoming) => do
      let (alternatives, inner) ← Tree.markAll recursing around alternatives
      let own ← ownFlags recursing around tree
      let label := { label with notes := { label.notes with chooseBy := some incoming } }
      return (.merge label alternatives incoming,
        (inner.union (.ofRecorded (.unionAll incoming.values))).union own)

/-- Marks the part that an arm holds; an arm that leaves a loop leaves its function. -/
def Tree.markArm (recursing : CoordSet) (around : Option BlockId) :
    Arm → Except Defect (Arm × Flags)
  | .jump coord jumps => return (.jump coord jumps, .ofLeaving jumps.breakCoords)
  | .nested tree => do
      let (tree, flags) ← Tree.mark recursing around tree
      return (.nested tree, flags)

/-- Marks the trees of a list in their order. -/
def Tree.markAll (recursing : CoordSet) (around : Option BlockId) :
    List Tree → Except Defect (List Tree × Flags)
  | [] => return ([], .none)
  | tree :: rest => do
      let (tree, own) ← Tree.mark recursing around tree
      let (others, flags) ← Tree.markAll recursing around rest
      return (tree :: others, own.union flags)

end

/-- Marks a method, given its coordinates that run their own loop again. -/
def Tree.marked (tree : Tree) (recursing : CoordSet) : Except Defect (Tree × Flags) := do
  let (tree, flags) ← tree.mark recursing none
  return (tree, { flags with recursing })

end GotoFree
