import GotoFree.Program.Block

/-!
# Defects

A step that relies on what an earlier step has established refuses to go on where that does not
hold. On input that came through the checks before it none of these defects should arise; they are
values, so that this can be stated.
-/

namespace GotoFree

/-- What is wrong with the blocks of a method. -/
inductive GraphFault where
  | missingEntry (entry : BlockId)
  | duplicateBlock (block : BlockId)
  | missingSuccessor (block target : BlockId)
  | successorMismatch (block : BlockId) (expected found : Nat)
  | misplacedTerminator (block : BlockId)
  | unplacedBlocks (blocks : List BlockId)
deriving DecidableEq

/-- The message of a graph error. -/
def GraphFault.message : GraphFault → String
  | .missingEntry entry => "entry block " ++ entry.text ++ " does not exist"
  | .duplicateBlock block => "block " ++ block.text ++ " is defined more than once"
  | .missingSuccessor block target =>
      "block " ++ block.text ++ " jumps to undefined block " ++ target.text
  | .successorMismatch block expected found =>
      "block " ++ block.text ++ " has " ++ toString found
        ++ " successors but its terminator implies " ++ toString expected
  | .misplacedTerminator block =>
      "block " ++ block.text ++ " contains a branch or return before its last instruction"
  | .unplacedBlocks blocks =>
      "blocks " ++ BlockId.listText blocks ++ " cannot be reached from any entry of their region"

/-- A broken expectation between two steps. -/
inductive Defect where
  /-- A block is looked up that the graph does not have. -/
  | unknownBlock (block : BlockId)
  /-- An entry of a region is no vertex of its acyclic view. -/
  | entryWithoutVertex (entry : BlockId)
  /-- The tree of a loop is looked up before it is made. -/
  | unknownLoop (id : Nat)
  /-- A region without entries is rooted. -/
  | regionWithoutEntry
  /-- A loop has no block through which it is entered. -/
  | loopWithoutEntry
  /-- A sequence is built from nothing. -/
  | emptySequence
  /-- The entry of a sequence without elements is asked for. -/
  | headlessSequence
  /-- A method body has exits of loops among its own. -/
  | escapingExits
  /-- A plain edge leads out of the body of a loop. -/
  | flowOutOfLoop (head : BlockId)
  /-- A node outside of all loops has exits of loops. -/
  | exitOutsideLoop (head : BlockId)
  /-- A coordinate both continues its own loop and leaves it. -/
  | recursesAndEscapes (coord : Coord)
  /-- An element of a sequence is the target of no earlier one. -/
  | unreachedElement (head : BlockId)
  /-- A gate waits for nothing. -/
  | emptyGate
  /-- A slot lies outside of its object. -/
  | slotOutsideObject
  /-- A parameter of a method has no argument. -/
  | parameterWithoutArgument
  /-- A graph that was promised to be well formed is not. -/
  | malformedGraph (error : GraphFault)
deriving DecidableEq

/-- The message of a defect, where it has one. -/
def Defect.message : Defect → Option String
  | .unknownBlock _ | .entryWithoutVertex _ | .unknownLoop _ | .regionWithoutEntry
  | .parameterWithoutArgument => none
  | .loopWithoutEntry => some "BUG: reachable loop without an entry block"
  | .emptySequence => some "BUG: empty sequence"
  | .headlessSequence => none
  | .escapingExits => some "BUG: loop exits escape the method body"
  | .flowOutOfLoop head =>
      some ("BUG: loop body at " ++ head.text ++ " has flows leaving the loop")
  | .exitOutsideLoop head =>
      some ("BUG: node at " ++ head.text ++ " leaves a loop but is not inside one")
  | .recursesAndEscapes coord =>
      some ("BUG: " ++ coord.text ++ " both recurses and escapes its loop")
  | .unreachedElement head =>
      some ("BUG: sequence element at " ++ head.text ++ " is not reached by any flow")
  | .emptyGate => some "BUG: gate without any value"
  | .slotOutsideObject => none
  | .malformedGraph error => some ("malformed test graph: " ++ error.message)

/-- Why a method was not structured. -/
inductive Obstacle where
  | graph (error : GraphFault)
  | defect (defect : Defect)
deriving DecidableEq

/-- Lets a step that relies on earlier ones fail with its own kind of error. -/
def liftDefect {α : Type} : Except Defect α → Except Obstacle α
  | .ok value => .ok value
  | .error defect => .error (.defect defect)

end GotoFree
