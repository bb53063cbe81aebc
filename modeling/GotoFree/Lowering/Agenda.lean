import GotoFree.Lowering.Names
import GotoFree.Lowering.Numbering

/-!
# The methods to lower

Methods are lowered when something refers to them. The first request for a method's name also puts
it at the end of the queue, so the queue never lists a method twice.
-/

namespace GotoFree

/-- An instruction by its position in a program. -/
structure Spot where
  method : MethodId
  block : BlockId
  index : Nat
deriving DecidableEq

/-- The methods still to lower, and the names and numbers handed out so far. -/
structure Agenda where
  registry : Registry
  spots : Numbering Spot
  queue : List MethodId
  /-- The methods that have ever been in the queue. -/
  seen : SortedSet MethodId

namespace Agenda

/-- Nothing has been asked for. -/
def empty : Agenda := ⟨.empty, .empty, [], .empty⟩

/-- The name of a method's function; a method that is asked for first joins the queue. -/
def request (agenda : Agenda) (id : MethodId) (className name : String) :
    String × Agenda :=
  let (chosen, registry) := agenda.registry.nameFor id className name
  let agenda := { agenda with registry }
  if id ∈ agenda.seen then (chosen, agenda)
  else (chosen, { agenda with
    queue := agenda.queue ++ [id], seen := agenda.seen.insert id })

/-- The number of an instruction among all that asked for one. -/
def unit (agenda : Agenda) (spot : Spot) : Nat × Agenda :=
  let (number, spots) := agenda.spots.number spot
  (number, { agenda with spots })

end Agenda

end GotoFree
