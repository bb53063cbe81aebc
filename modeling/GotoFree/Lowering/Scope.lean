import GotoFree.Program.Method
import GotoFree.SortedMap

/-!
# Scopes

Which locals have a binding at a point of the output, and which will get one with their first
value. A nested block starts with the scope around it, and what it binds ends with it.
-/

namespace GotoFree

/-- The cell that holds the coordinate recorded last. -/
def controlCell : String := "__ctl"

/-- The function of a loop while its body is lowered. -/
structure LoopFrame where
  name : String
  params : List String
  /-- Whether the function hands back the method's value rather than nothing. -/
  yieldsValue : Bool
deriving DecidableEq

/-- The locals at a point of the output. -/
structure Scope where
  bound : SortedMap String Binding
  /-- Locals that are bound when they get their first value. -/
  postponed : SortedMap String Binding
  /-- The loop function around the point. -/
  loop : Option LoopFrame

namespace Scope

/-- The scope at the start of a method. -/
def empty : Scope := ⟨.empty, .empty, none⟩

/-- The binding of a local. -/
def binding? (scope : Scope) (name : String) : Option Binding := scope.bound.get? name

/-- The binding that a local will get with its first value. -/
def postponed? (scope : Scope) (name : String) : Option Binding := scope.postponed.get? name

/-- Binds a local. -/
def bind (scope : Scope) (name : String) (binding : Binding) : Scope :=
  { scope with bound := scope.bound.insert name binding, postponed := scope.postponed.erase name }

/-- Leaves the binding of a local to its first value. -/
def postpone (scope : Scope) (name : String) (binding : Binding) : Scope :=
  { scope with postponed := scope.postponed.insert name binding }

theorem binding?_bind {scope : Scope} {name other : String} {binding : Binding} :
    (scope.bind name binding).binding? other =
      if name = other then some binding else scope.binding? other :=
  SortedMap.get?_insert

theorem postponed?_bind {scope : Scope} {name other : String} {binding : Binding} :
    (scope.bind name binding).postponed? other =
      if name = other then none else scope.postponed? other :=
  SortedMap.get?_erase

theorem postponed?_postpone {scope : Scope} {name other : String} {binding : Binding} :
    (scope.postpone name binding).postponed? other =
      if name = other then some binding else scope.postponed? other :=
  SortedMap.get?_insert

/-- The bound locals in the order of their names. -/
def locals (scope : Scope) : List String := scope.bound.keys

/-- The scope at the start of a loop function. -/
def insideLoop (scope : Scope) (frame : LoopFrame) : Scope := { scope with loop := some frame }

end Scope

end GotoFree
