import GotoFree.Proofs.Answers

/-!
# Reasons that do not occur

Most reasons for a rejection have nothing to do with the bindings of locals, and their texts show it
(`Rejection.IsBindingFault`). A step bars some reasons if it never rejects a program for one of them
(`Lower.Bars`); if its parts do, so does the step.
-/

namespace GotoFree

/-! ## Binding faults -/

namespace Rejection

/-- A complaint about a local that is read, defined or bound where it may not be, or that is not
declared. -/
inductive IsBindingComplaint : String → Prop where
  | readOutside (name : String) (id : MethodId) : IsBindingComplaint
      ("local " ++ name ++ " of " ++ id.text ++ " is read outside the scope of its binding")
  | definedOutside (name : String) (id : MethodId) : IsBindingComplaint
      ("local " ++ name ++ " of " ++ id.text ++ " is defined outside the scope of its binding")
  | definedAgain (name : String) (id : MethodId) : IsBindingComplaint
      ("CONST local " ++ name ++ " of " ++ id.text ++ " is defined more than once")
  | neverDefined (name : String) (id : MethodId) (block : BlockId) : IsBindingComplaint
      ("local " ++ name ++ " of " ++ id.text ++ " is bound CONST at block " ++ block.text
        ++ " which never defines it")
  | undeclared (name : String) (id : MethodId) : IsBindingComplaint
      ("local " ++ name ++ " of " ++ id.text ++ " is not declared")

/-- A reason that blames the binding of a local, also where no new object can be stored into it. -/
def IsBindingFault : Rejection → Prop
  | malformed complaint => IsBindingComplaint complaint
  | unsupported _ construct _ _ => ∃ name, construct = (WriteFault.fixedOwner name).message
  | internal _ | graph _ _ => False

variable {complaint construct instruction : String} {id : MethodId} {operandTypes : List String}

/-- Complaints about bindings start with the kind of the local. -/
theorem IsBindingComplaint.head (blames : IsBindingComplaint complaint) :
    complaint.toList.head? = some 'l' ∨ complaint.toList.head? = some 'C' := by
  cases blames with
  | definedAgain => exact .inr (by simp)
  | readOutside | definedOutside | neverDefined | undeclared => exact .inl (by simp)

/-- Only a write to a field is a construct that a binding may be at fault for. -/
theorem not_isBindingFault_unsupported (other : construct.toList.take 7 ≠ "field w".toList) :
    ¬ IsBindingFault (.unsupported id construct instruction operandTypes) := by
  rintro ⟨name, rfl⟩
  refine other ?_
  unfold WriteFault.message
  rw [String.toList_append, List.take_append_of_le_length (by decide)]
  decide

/-- Complaints that start otherwise are not about bindings. -/
theorem not_isBindingFault_malformed (plain : complaint.toList.head? ≠ some 'l')
    (fixed : complaint.toList.head? ≠ some 'C') : ¬ IsBindingFault (.malformed complaint) :=
  fun blames => blames.head.elim plain fixed

theorem not_isBindingFault_internal : ¬ IsBindingFault (.internal complaint) := id

theorem not_isBindingFault_graph {error : GraphFault} : ¬ IsBindingFault (.graph id error) :=
  False.elim

end Rejection

/-! ## Steps that fail for other reasons only -/

section

variable {α β : Type} {bad : Rejection → Prop}

/-- A check does not fail for a bad reason. -/
def Excludes (bad : Rejection → Prop) (result : Except Rejection α) : Prop :=
  ∀ reason, result = .error reason → ¬ bad reason

namespace Excludes

theorem ok {value : α} : Excludes bad (.ok value) := nofun

theorem error {reason : Rejection} (other : ¬ bad reason) :
    Excludes bad (.error reason : Except Rejection α) := by
  rintro _ ⟨⟩
  exact other

/-- Checks in a row fail for other reasons if each of them does. -/
theorem bind {first : Except Rejection α} {rest : α → Except Rejection β}
    (one : Excludes bad first) (other : ∀ value, first = .ok value → Excludes bad (rest value)) :
    Excludes bad (first >>= rest) := by
  cases first with
  | ok value => exact other value rfl
  | error reason => exact error (one reason rfl)

/-- Checks for the values of a list fail for other reasons if each of them does. -/
theorem mapM {step : α → Except Rejection β} {list : List α}
    (each : ∀ a ∈ list, Excludes bad (step a)) : Excludes bad (list.mapM step) := by
  induction list with
  | nil => exact ok
  | cons first rest ih =>
      rw [List.mapM_cons]
      refine (each first (by simp)).bind fun value _ => ?_
      exact (ih fun a member => each a (List.mem_cons_of_mem _ member)).bind fun _ _ => ok

theorem foldlM {step : β → α → Except Rejection β} {list : List α} {start : β}
    (each : ∀ before, ∀ a ∈ list, Excludes bad (step before a)) :
    Excludes bad (list.foldlM step start) := by
  induction list generalizing start with
  | nil => exact ok
  | cons first rest ih =>
      rw [List.foldlM_cons]
      refine (each start first (by simp)).bind fun _ _ => ?_
      exact ih fun before a member => each before a (List.mem_cons_of_mem _ member)

end Excludes

namespace Lower

/-- A step answers as it should if it succeeds, and does not reject the program for a bad reason if
it fails. -/
structure Bars (bad : Rejection → Prop) (step : Lower α) (known : α → Prop) : Prop where
  yields : Yields step known
  excludes : ∀ progress reason, step progress = .error (.rejected reason) → ¬ bad reason

namespace Bars

variable {step : Lower α} {known : α → Prop}

/-- A step that always succeeds fails for no reason. -/
theorem of_succeeds (succeeds : Succeeds step known) : Bars bad step known := by
  constructor
  · intro progress answer after made
    obtain ⟨_, _, here, isKnown⟩ := succeeds progress
    cases here.symm.trans made
    exact isKnown
  · intro progress reason fails
    obtain ⟨_, _, here, -⟩ := succeeds progress
    cases here.symm.trans fails

theorem pure {value : α} (here : known value) : Bars bad (pure value) known :=
  of_succeeds (.pure here)

theorem reject {reason : Rejection} (other : ¬ bad reason) :
    Bars bad (reject reason : Lower α) known := by
  refine ⟨.reject, ?_⟩
  rintro progress _ ⟨⟩
  exact other

theorem defect {fault : Defect} : Bars bad (throw (.defect fault) : Lower α) known :=
  ⟨nofun, nofun⟩

/-- The rest of a step may rely on what its first part has answered. -/
theorem bind {first : Lower α} {rest : α → Lower β} {later : β → Prop} (one : Bars bad first known)
    (other : ∀ value, known value → Bars bad (rest value) later) :
    Bars bad (first >>= rest) later := by
  refine ⟨one.yields.bind fun value here => (other value here).yields, ?_⟩
  intro progress reason fails
  rw [bind_apply] at fails
  cases made : first progress with
  | error failure =>
      rw [made, error_bind, Except.error.injEq] at fails
      exact one.excludes progress reason (fails ▸ made)
  | ok answer =>
      rw [made, ok_bind] at fails
      exact (other answer.1 (one.yields _ _ _ made)).excludes answer.2 reason fails

/-- Less may be known of what a step answers. -/
theorem imp {weaker : α → Prop} (bars : Bars bad step known)
    (weaken : ∀ value, known value → weaker value) : Bars bad step weaker :=
  ⟨bars.yields.imp weaken, bars.excludes⟩

/-- A check fails for other reasons in lowering if it does by itself. -/
theorem check {result : Except Rejection α} (excludes : Excludes bad result) :
    Bars bad (check result) fun value => result = .ok value := by
  cases result with
  | ok value => exact pure rfl
  | error reason => exact reject (excludes reason rfl)

/-- Steps for the values of a list fail for other reasons if each of them does. -/
theorem mapM {step : α → Lower β} {list : List α}
    (each : ∀ a ∈ list, Bars bad (step a) fun _ => True) :
    Bars bad (list.mapM step) fun _ => True := by
  induction list with
  | nil => exact pure trivial
  | cons first rest ih =>
      rw [List.mapM_cons]
      refine (each first (by simp)).bind fun _ _ => ?_
      exact (ih fun a member => each a (List.mem_cons_of_mem _ member)).bind fun _ _ => pure trivial

theorem fresh {stem : String} : Bars bad (fresh stem) fun _ => True :=
  of_succeeds fun _ => ⟨_, _, rfl, trivial⟩

theorem request {id : MethodId} {method : Method} : Bars bad (request id method) fun _ => True :=
  of_succeeds .request

theorem flag {coord : Coord} : Bars bad (flag coord) fun _ => True := of_succeeds .flag

end Bars

end Lower

end

end GotoFree
