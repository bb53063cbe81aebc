import GotoFree.Lowering.Rejection

/-!
# Checked binding plans

A binding plan may be used if every local it mentions is declared and introduced in one place only.
-/

namespace GotoFree

/-- A place where a plan introduces locals, as messages name it, with the locals. -/
def BindingPlan.places (plan : BindingPlan) : List (String × SortedMap String Binding) :=
  ("entry", plan.entry) ::
    plan.blocks.entries.map fun (id, locals) => ("block " ++ id.text, locals)

/-- The locals a plan introduces, each with its place. -/
def BindingPlan.introductions (plan : BindingPlan) : List (String × String) :=
  plan.places.flatMap fun (place, locals) => locals.keys.map fun name => (name, place)

namespace Method

/-- The name of a method as complaints about its locals show it. -/
def label (method : Method) : String := method.className ++ "." ++ method.name

/-- Checks introductions in order, given those that were met before. -/
def checkIntroductions (method : Method) (met : List (String × String)) :
    List (String × String) → Except Rejection Unit
  | [] => return ()
  | (name, place) :: rest => do
      if (method.localType? name).isNone then
        throw (.malformed ("binding plan of " ++ method.label ++ " mentions undeclared local "
          ++ name))
      match met.lookup name with
      | some earlier =>
          throw (.malformed ("local " ++ name ++ " of " ++ method.label ++ " is bound both at "
            ++ earlier ++ " and at " ++ place))
      | none => checkIntroductions method ((name, place) :: met) rest

/-- The binding plan of a method, if each local in it is declared and introduced once. -/
def checkedPlan (method : Method) : Except Rejection BindingPlan := do
  let plan := method.effectivePlan
  method.checkIntroductions [] plan.introductions
  return plan

end Method

end GotoFree
