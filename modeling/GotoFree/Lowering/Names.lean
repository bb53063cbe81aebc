import GotoFree.Program.Method
import GotoFree.Text.Alphanumeric

/-!
# Names of functions and temporaries

A method's function is named after its class and its own name. Characters that a name may not have
become underscores, and a name that is taken already gets a number after it, so different methods
have different names. The temporaries of an instruction end in the number of its site.
-/

namespace GotoFree

/-- A part of a name: the brackets around it fall away, and every character that is no letter or
number becomes an underscore. -/
def sanitized (name : String) : String :=
  let opened := name.toList.dropWhile (· = '<')
  let closed := (opened.reverse.dropWhile (· = '>')).reverse
  String.ofList (closed.map fun c => if isAlphanumeric c then c else '_')

/-! ## Names of methods -/

/-- The names that methods have got. -/
structure Registry where
  names : SortedMap MethodId String
  used : SortedSet String

namespace Registry

/-- No method has a name. -/
def empty : Registry := ⟨.empty, .empty⟩

/-- The names tried for a method: its plain name, and then the name with a number from 2 on. One
more is tried than there are names in use, so one of them is free. -/
def candidates (registry : Registry) (base : String) : List String :=
  base :: (List.range registry.used.size).map fun n => base ++ "_" ++ toString (n + 2)

/-- The first name for a method that no other method has. -/
def free (registry : Registry) (base : String) : String :=
  ((registry.candidates base).find? fun name => name ∉ registry.used).getD base

/-- The name of a method. A method that has got one keeps it. -/
def nameFor (registry : Registry) (id : MethodId) (className name : String) :
    String × Registry :=
  match registry.names.get? id with
  | some known => (known, registry)
  | none =>
      let chosen := registry.free (sanitized className ++ "_" ++ sanitized name)
      (chosen, ⟨registry.names.insert id chosen, registry.used.insert chosen⟩)

end Registry

/-! ## Temporaries -/

/-- The temporaries of one instruction. -/
structure Temporaries where
  /-- The number of the instruction's site. -/
  unit : Nat
  /-- How often each stem was asked for. -/
  issued : SortedMap String Nat

namespace Temporaries

/-- No temporary has been asked for yet. -/
def ofUnit (unit : Nat) : Temporaries := ⟨unit, .empty⟩

/-- A new temporary: its stem with the site's number, and with a count if the stem was asked for
before. -/
def fresh (temporaries : Temporaries) (stem : String) : String × Temporaries :=
  let count := (temporaries.issued.get? stem).getD 0
  let plain := stem ++ "_" ++ toString temporaries.unit
  (if count = 0 then plain else plain ++ "_" ++ toString count,
    { temporaries with issued := temporaries.issued.insert stem (count + 1) })

/-- The temporary for the argument at a position of the site's call. -/
def argument (temporaries : Temporaries) (position : Nat) : String :=
  "__call" ++ toString temporaries.unit ++ "_" ++ toString position

end Temporaries

end GotoFree
