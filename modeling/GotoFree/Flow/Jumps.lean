import GotoFree.Program.Block
import GotoFree.SortedMap

/-!
# Ways out of a part of a method

A `Jumps` record sums up the edges by which control leaves a part of a structured method, sorted by
what they mean there: plain flow to a block of the region around it, an exit from a loop around it,
a continue of a loop around it, or a return.
-/

namespace GotoFree

/-- An edge by its coordinate and its target. -/
abbrev Edge := Coord × BlockId

/-- The edges by which control leaves a part of a method. -/
structure Jumps where
  /-- Edges to a block of the region around the part. -/
  flow : SortedSet Edge
  /-- Edges out of a loop around the part, with their targets. -/
  breaks : SortedMap Coord BlockId
  /-- Edges back to an entry of a loop around the part, with the head of that loop. -/
  continues : SortedSet Edge
  /-- The exits of blocks that end in a return. -/
  returns : CoordSet
deriving DecidableEq

namespace Jumps

/-- No way out. -/
def none : Jumps := ⟨.empty, .empty, .empty, .empty⟩

instance : Inhabited Jumps := ⟨none⟩

/-- A plain edge. -/
def ofFlow (coord : Coord) (target : BlockId) : Jumps :=
  { none with flow := .singleton (coord, target) }

/-- An exit from a loop. -/
def ofBreak (coord : Coord) (target : BlockId) : Jumps :=
  { none with breaks := SortedMap.empty.insert coord target }

/-- A continue of the loop with a head. -/
def ofContinue (coord : Coord) (head : BlockId) : Jumps :=
  { none with continues := .singleton (coord, head) }

/-- A return. -/
def ofReturn (coord : Coord) : Jumps := { none with returns := .singleton coord }

/-- The ways out of two parts together; of two exits along one coordinate the second counts. -/
def union (left right : Jumps) : Jumps where
  flow := left.flow.union right.flow
  breaks := left.breaks.union right.breaks
  continues := left.continues.union right.continues
  returns := left.returns.union right.returns

/-- Whether there is no way out. -/
def isEmpty (jumps : Jumps) : Bool :=
  jumps.flow.isEmpty && jumps.breaks.isEmpty && jumps.continues.isEmpty && jumps.returns.isEmpty

/-- Whether control leaves a loop, by an exit or a continue. -/
def leavesLoop (jumps : Jumps) : Bool := !jumps.breaks.isEmpty || !jumps.continues.isEmpty

/-- The coordinates of the exits from loops. -/
def breakCoords (jumps : Jumps) : CoordSet := .ofList jumps.breaks.keys

/-- All coordinates. -/
def coords (jumps : Jumps) : CoordSet :=
  .ofList (jumps.flow.toList.map Prod.fst ++ jumps.breaks.keys ++
    jumps.continues.toList.map Prod.fst ++ jumps.returns.toList)

end Jumps

end GotoFree
