import GotoFree.Proofs.ScopedScripts
import Mathlib.Data.List.Nodup
import Mathlib.Data.List.Perm.Subperm

/-!
# Names in sight

A name refers to the innermost binding of it. Where the names in sight are distinct at every place
of some code, no binding hides another one, so each use of a name has one binding it can refer to
(`Stmt.Unshadowed`, `Function.Unshadowed`). Names may be of two kinds that are not told from each
other by their looks; then those of one kind are distinct (`Parted`). Either is a condition that is
kept where fewer names are in sight (`Stable`). A script that binds only at its top meets such a
condition everywhere as soon as it does so at its end (`Script.Flat.sighted`).
-/

namespace GotoFree.Target

/-- A condition on the names in sight that does not ask for their order, and is kept when there are
fewer of them. -/
def Stable (sight : List String → Prop) : Prop :=
  ∀ ⦃names more⦄, sight names → List.Subperm more names → sight more

/-- The names in sight at a place are distinct, and known. -/
structure Clear (known : String → Prop) (names : List String) : Prop where
  distinct : names.Nodup
  each : ∀ name ∈ names, known name

/-- The names in sight at a place are of two kinds, and those of one kind are distinct. -/
def Parted (one other : String → Prop) (names : List String) : Prop :=
  ∃ ones others, names.Perm (ones ++ others) ∧ Clear one ones ∧ Clear other others

/-- Under each binding in a statement the names in sight meet a condition. -/
inductive Stmt.Sighted (sight : List String → Prop) : List String → Stmt → Prop where
  | bind {names : List String} {pattern : Pattern} {value : Expr} {body : List Stmt}
      (here : sight (pattern.names ++ names))
      (inside : ∀ stmt ∈ body, Sighted sight (pattern.names ++ names) stmt) :
      Sighted sight names (.bind pattern value body)
  | cond {names : List String} {condition : Expr} {thenBranch elseBranch : List Stmt}
      (ofThen : ∀ stmt ∈ thenBranch, Sighted sight names stmt)
      (ofElse : ∀ stmt ∈ elseBranch, Sighted sight names stmt) :
      Sighted sight names (.cond condition thenBranch elseBranch)
  | assign {names : List String} {target : String} {value : Expr} :
      Sighted sight names (.assign target value)
  | arrayStore {names : List String} {array position value : Expr} :
      Sighted sight names (.arrayStore array position value)
  | ret {names : List String} {value : Expr} : Sighted sight names (.ret value)
  | assert {names : List String} {condition : Expr} : Sighted sight names (.assert condition)
  | aliased {names : List String} {left right : Expr} : Sighted sight names (.aliased left right)
  | expr {names : List String} {value : Expr} : Sighted sight names (.expr value)

/-- The parameters of a function meet a condition, and so do the names in sight wherever it binds
more. -/
structure Function.Sighted (sight : List String → Prop) (function : Function) : Prop where
  params : sight function.params
  body : ∀ stmt ∈ function.body, stmt.Sighted sight function.params

/-- Under each binding in a statement the names in sight are distinct and known. -/
abbrev Stmt.Unshadowed (known : String → Prop) : List String → Stmt → Prop :=
  Stmt.Sighted (Clear known)

/-- The parameters of a function are distinct and known, and so are the names in sight wherever it
binds more. -/
abbrev Function.Unshadowed (known : String → Prop) (function : Function) : Prop :=
  function.Sighted (Clear known)

/-- A statement that binds no name, nor any statement in it. -/
def Stmt.BindsNone (stmt : Stmt) : Prop := ∀ sight names, stmt.Sighted sight names

/-! ## Conditions on names in sight -/

section Conditions

variable {known one other first second : String → Prop} {sight weaker : List String → Prop}
  {names more : List String}

/-- Names that are clear stay so when some of them are out of sight. -/
theorem Clear.stable : Stable (Clear known) := by
  intro names more clear fewer
  obtain ⟨some, same, sublist⟩ := fewer
  exact ⟨same.nodup_iff.1 (clear.distinct.sublist sublist), fun name member =>
    clear.each name (sublist.subset (same.mem_iff.2 member))⟩

/-- Two clear lists are clear together, if they know different names. -/
theorem Clear.append (here : Clear one names) (there : Clear other more)
    (apart : ∀ name, one name → ¬ other name) :
    Clear (fun name => one name ∨ other name) (names ++ more) where
  distinct := List.nodup_append'.2 ⟨here.distinct, there.distinct, fun name member isOther =>
    apart name (here.each name member) (there.each name isOther)⟩
  each := List.forall_mem_append.2
    ⟨fun name member => .inl (here.each name member),
      fun name member => .inr (there.each name member)⟩

/-- More names may be known. -/
theorem Clear.imp (clear : Clear one names) (weaken : ∀ name, one name → other name) :
    Clear other names :=
  ⟨clear.distinct, fun name member => weaken name (clear.each name member)⟩

theorem Clear.nil : Clear known [] := ⟨.nil, nofun⟩

/-- Distinct names of the first kind. -/
theorem Clear.parted (clear : Clear one names) : Parted one other names :=
  ⟨names, [], by simp, clear, .nil⟩

/-- Distinct names of the second kind. -/
theorem Clear.partedOther (clear : Clear other names) : Parted one other names :=
  ⟨[], names, .refl _, .nil, clear⟩

namespace Parted

/-- More names may be counted as either kind. -/
theorem imp (parted : Parted one other names) (ofOne : ∀ name, one name → first name)
    (ofOther : ∀ name, other name → second name) : Parted first second names := by
  obtain ⟨ones, others, same, isOne, isOther⟩ := parted
  exact ⟨ones, others, same, isOne.imp ofOne, isOther.imp ofOther⟩

/-- Names that come together keep apart if those of each kind do. -/
theorem append (here : Parted one other names) (there : Parted first second more)
    (apart : ∀ name, one name → ¬ first name) (apartOther : ∀ name, other name → ¬ second name) :
    Parted (fun name => one name ∨ first name) (fun name => other name ∨ second name)
      (names ++ more) := by
  obtain ⟨ones, others, same, isOne, isOther⟩ := here
  obtain ⟨firsts, seconds, sameMore, isFirst, isSecond⟩ := there
  refine ⟨ones ++ firsts, others ++ seconds, (same.append sameMore).trans ?_,
    isOne.append isFirst apart, isOther.append isSecond apartOther⟩
  simp only [List.append_assoc]
  refine List.Perm.append_left ones ?_
  rw [← List.append_assoc, ← List.append_assoc]
  exact List.perm_append_comm.append_right seconds

/-- The order of the names does not matter. -/
theorem perm (parted : Parted one other names) (same : more.Perm names) :
    Parted one other more := by
  obtain ⟨ones, others, sorted, clear⟩ := parted
  exact ⟨ones, others, same.trans sorted, clear⟩

/-- Names that are parted stay so when some of them are out of sight. -/
theorem stable : Stable (Parted one other) := by
  rintro names more ⟨ones, others, same, isOne, isOther⟩ fewer
  obtain ⟨some, sorted, sublist⟩ := fewer.trans same.subperm
  obtain ⟨ofOnes, ofOthers, rfl, among, amongOthers⟩ := List.sublist_append_iff.1 sublist
  exact ⟨ofOnes, ofOthers, sorted.symm, isOne.stable among.subperm,
    isOther.stable amongOthers.subperm⟩

/-- Where no name is of both kinds, all names in sight are distinct. -/
theorem clear (parted : Parted one other names) (apart : ∀ name, one name → ¬ other name) :
    Clear (fun name => one name ∨ other name) names := by
  obtain ⟨ones, others, same, isOne, isOther⟩ := parted
  exact (isOne.append isOther apart).stable same.subperm

end Parted

/-- A weaker property of the names in sight holds under the same binders. -/
theorem Stmt.Sighted.imp {stmt : Stmt} (sighted : stmt.Sighted sight names)
    (weaken : ∀ names, sight names → weaker names) : stmt.Sighted weaker names := by
  induction sighted with
  | bind here inside ih => exact .bind (weaken _ here) ih
  | cond ofThen ofElse thenIh elseIh => exact .cond thenIh elseIh
  | assign => exact .assign
  | arrayStore => exact .arrayStore
  | ret => exact .ret
  | assert => exact .assert
  | aliased => exact .aliased
  | expr => exact .expr

/-- A weaker property of the names in sight holds in the same function. -/
theorem Function.Sighted.imp {function : Function} (sighted : function.Sighted sight)
    (weaken : ∀ names, sight names → weaker names) : function.Sighted weaker :=
  ⟨weaken _ sighted.params, fun stmt member => (sighted.body stmt member).imp weaken⟩

end Conditions

namespace Script

/-- The names that the steps of a script bind. -/
def bound : Script → List String
  | [] => []
  | .stmt _ :: rest => bound rest
  | .bind pattern _ :: rest => pattern.names ++ bound rest

/-- The names in sight in a script meet a condition, and so do those in its statements. -/
def Sighted (sight : List String → Prop) (names : List String) : Script → Prop
  | [] => True
  | .stmt stmt :: rest => stmt.Sighted sight names ∧ Sighted sight names rest
  | .bind pattern _ :: rest =>
      sight (pattern.names ++ names) ∧ Sighted sight (pattern.names ++ names) rest

/-- Only the steps of a script bind names, and not the statements in it. -/
def Flat (script : Script) : Prop := ∀ stmt, .stmt stmt ∈ script → stmt.BindsNone

variable {sight : List String → Prop} {names : List String} {script other : Script}
  {block : List Stmt} {name : String} {value : Expr}

/-! ## Bound names -/

@[simp] theorem bound_nil : bound [] = [] := rfl

@[simp] theorem bound_stmt {stmt : Stmt} : bound (.stmt stmt :: script) = bound script := rfl

@[simp] theorem bound_assign : bound (assign name value :: script) = bound script := rfl

@[simp] theorem bound_bind {pattern : Pattern} :
    bound (.bind pattern value :: script) = pattern.names ++ bound script := rfl

@[simp] theorem bound_bindName : bound (bindName name value :: script) = name :: bound script := rfl

@[simp] theorem bound_bindCell : bound (bindCell name value :: script) = name :: bound script := rfl

@[simp] theorem bound_append : bound (script ++ other) = bound script ++ bound other := by
  induction script with
  | nil => rfl
  | cons step rest ih => cases step <;> simp [ih]

@[simp] theorem bound_ofStmts : bound (ofStmts block) = [] := by
  induction block with
  | nil => rfl
  | cons stmt rest ih => exact ih

/-- A script adds the names that it binds to those in sight. -/
theorem opened_perm : (opened names script).Perm (bound script ++ names) := by
  induction script generalizing names with
  | nil => exact .refl _
  | cons step rest ih =>
      cases step with
      | stmt => exact ih
      | bind pattern value =>
          rw [opened, bound_bind]
          refine ih.trans ?_
          rw [← List.append_assoc]
          exact List.perm_append_comm.append_right names

/-! ## Flat scripts -/

@[simp] theorem flat_nil : Flat [] := fun _ member => (List.not_mem_nil member).elim

@[simp] theorem flat_append : Flat (script ++ other) ↔ Flat script ∧ Flat other := by
  simp only [Flat, List.mem_append, or_imp, forall_and]

@[simp] theorem flat_bind {pattern : Pattern} :
    Flat (.bind pattern value :: script) ↔ Flat script := by
  simp [Flat]

@[simp] theorem flat_bindName : Flat (bindName name value :: script) ↔ Flat script := flat_bind

@[simp] theorem flat_bindCell : Flat (bindCell name value :: script) ↔ Flat script := flat_bind

@[simp] theorem flat_stmt {stmt : Stmt} :
    Flat (.stmt stmt :: script) ↔ stmt.BindsNone ∧ Flat script := by
  simp [Flat]

@[simp] theorem flat_assign : Flat (assign name value :: script) ↔ Flat script :=
  flat_stmt.trans (and_iff_right fun _ _ => .assign)

@[simp] theorem flat_ofStmts : Flat (ofStmts block) ↔ ∀ stmt ∈ block, stmt.BindsNone := by
  simp [Flat, ofStmts]

/-- In a flat script it is enough that the names in sight at its end meet the condition. -/
theorem Flat.sighted (flat : script.Flat) (stable : Stable sight)
    (atEnd : sight (bound script ++ names)) : script.Sighted sight names := by
  induction script generalizing names with
  | nil => trivial
  | cons step rest ih =>
      cases step with
      | stmt stmt =>
          obtain ⟨none, others⟩ := flat_stmt.1 flat
          exact ⟨none sight names, ih others atEnd⟩
      | bind pattern value =>
          rw [bound_bind] at atEnd
          constructor
          · exact stable atEnd ((List.sublist_append_left _ _).append (.refl _)).subperm
          · refine ih (flat_bind.1 flat) (stable atEnd (List.Perm.subperm ?_))
            rw [← List.append_assoc]
            exact List.perm_append_comm.append_right names

/-! ## Parts of scripts -/

/-- Scripts in a row are sighted if each is where it stands. -/
theorem sighted_append_iff : (script ++ other).Sighted sight names ↔
    script.Sighted sight names ∧ other.Sighted sight (opened names script) := by
  induction script generalizing names with
  | nil => simp [Sighted, opened]
  | cons step rest ih =>
      cases step with
      | stmt => simp only [List.cons_append, Sighted, opened, ih, and_assoc]
      | bind => simp only [List.cons_append, Sighted, opened, ih, and_assoc]

/-- Statements are sighted if each of them is. -/
theorem sighted_ofStmts_iff : (ofStmts block).Sighted sight names ↔
    ∀ stmt ∈ block, stmt.Sighted sight names := by
  induction block with
  | nil => simp [ofStmts, Sighted]
  | cons stmt rest ih => simpa [ofStmts, Sighted] using fun _ => ih

/-- Nesting the bindings of a script changes nothing about the names in sight. -/
theorem Sighted.stmts (sighted : script.Sighted sight names) :
    ∀ stmt ∈ script.stmts, stmt.Sighted sight names := by
  induction script generalizing names with
  | nil => simp [Script.stmts]
  | cons step rest ih =>
      cases step with
      | stmt stmt => exact List.forall_mem_cons.2 ⟨sighted.1, ih sighted.2⟩
      | bind pattern value =>
          exact List.forall_mem_singleton.2 (.bind sighted.1 (ih sighted.2))

end Script

end GotoFree.Target
