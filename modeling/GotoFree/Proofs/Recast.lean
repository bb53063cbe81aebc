import GotoFree.Storage.ObjectModel
import GotoFree.Target.Program

/-!
# Code for the other object model

Code for the functional model is recast for the mutable one. New objects, the slots and tags that
are read and the slots on a path are written in another way; a write to a field names other slots
and stores to another variable; and the statements that tie names to objects again appear. Nothing
else changes (`Target.Recast`), and so recast code is terminal and empty where the code is
(`Target.Recast.allTerminal_eq`, `Target.Recast.eq_nil_iff`).
-/

namespace GotoFree

open Target (Expr Stmt Step Script Pattern)

/-- The names in an access to a field: the slot has one of its own, and so has the object if it is
the content of a cell. -/
structure IsAccess (handle : Handle) (owner : Owner) : Prop where
  cell : ∃ ending, handle.cell = "__field" ++ "_" ++ ending
  base : if owner.isCell then ∃ ending, handle.base = .var ("__base_ptr" ++ "_" ++ ending)
    else handle.base = .var owner.name

namespace Target

/-! ## Expressions -/

/-- An expression for the functional model and the same one for the mutable model. -/
inductive Expr.Recast : Expr → Expr → Prop
  | same (expr : Expr) : Recast expr expr
  /-- A new object. -/
  | allocate (tag : Int) (fields : List Expr) :
      Recast (ObjectModel.functional.allocate tag fields) (ObjectModel.mutable.allocate tag fields)
  /-- A slot that an access has named. -/
  | slot {handle : Handle} {owner : Owner} (access : IsAccess handle owner) :
      Recast (ObjectModel.functional.read handle).2 (ObjectModel.mutable.read handle).2
  /-- The tag of the receiver in a dispatch function. -/
  | tag : Recast (.var "__tag") (.contentOf "__tag")
  /-- A slot on a path. -/
  | path {one other : Expr} (slot : Nat) (start : Recast one other) :
      Recast (ObjectModel.functional.pathToSlot one slot)
        (ObjectModel.mutable.pathToSlot other slot)
  | mkRef {one other : Expr} (content : Recast one other) : Recast (.mkRef one) (.mkRef other)
  | binary {one other one' other' : Expr} (op : BinOp) (left : Recast one other)
      (right : Recast one' other') : Recast (.binary op one one') (.binary op other other')

/-- The tests whether a value is one of some integers are recast with the value. -/
theorem Expr.Recast.anyOf? {one other : Expr} (value : one.Recast other) (numbers : List Int) :
    Option.Rel Expr.Recast (one.anyOf? numbers) (other.anyOf? numbers) := by
  have test (n : Int) : Expr.Recast (.binary .eq one (.int n)) (.binary .eq other (.int n)) :=
    .binary .eq value (.same _)
  cases numbers with
  | nil => exact .none
  | cons first rest =>
      refine .some ?_
      have tests {one' other' : Expr} (start : one'.Recast other') :
          Expr.Recast
            (rest.foldl (fun tests n => .binary .or tests (.binary .eq one (.int n))) one')
            (rest.foldl (fun tests n => .binary .or tests (.binary .eq other (.int n)))
              other') := by
        induction rest generalizing one' other' with
        | nil => exact start
        | cons n rest ih => exact ih (.binary .or start (test n))
      exact tests (test first)

/-! ## Statements -/

/-- A statement that ties a name of an access to the object again. -/
def IsTie (stmt : Stmt) : Prop :=
  ∃ handle owner, IsAccess handle owner ∧ stmt ∈ ObjectModel.mutable.tieAgain handle owner

/-- A tie is not terminal. -/
theorem IsTie.isTerminal_eq {stmt : Stmt} (tie : IsTie stmt) : stmt.isTerminal = false := by
  obtain ⟨handle, owner, -, among⟩ := tie
  simp only [ObjectModel.tieAgain, List.mem_cons] at among
  rcases among with rfl | among
  · rfl
  · split at among
    · rw [List.mem_singleton.1 among]
      rfl
    · cases among

/-- A statement without blocks for the functional model and the same one for the mutable model. -/
inductive Stmt.Recast : Stmt → Stmt → Prop
  | same (stmt : Stmt) : Recast stmt stmt
  | assign {value value' : Expr} (target : String) (recast : value.Recast value') :
      Recast (.assign target value) (.assign target value')
  | arrayStore {value value' : Expr} (array position : Expr) (recast : value.Recast value') :
      Recast (.arrayStore array position value) (.arrayStore array position value')
  | aliased {left left' right right' : Expr} (recastLeft : left.Recast left')
      (recastRight : right.Recast right') : Recast (.aliased left right) (.aliased left' right')

/-- Statements that are recast are terminal alike. -/
theorem Stmt.Recast.isTerminal_eq {one other : Stmt} (recast : one.Recast other) :
    one.isTerminal = other.isTerminal := by
  cases recast <;> rfl

/-- Statements for the functional model and the same ones for the mutable model. Statements that tie
names again come in where control goes on from what stands before them; `opened` says that it may do
so at the start. -/
inductive Recast : (opened : Bool) → List Stmt → List Stmt → Prop
  | nil {opened : Bool} : Recast opened [] []
  | cons {opened next : Bool} {stmt stmt' : Stmt} {one other : List Stmt}
      (here : stmt.Recast stmt') (falls : next = true → stmt.isTerminal = false)
      (later : Recast next one other) : Recast opened (stmt :: one) (stmt' :: other)
  | cond {opened next : Bool} {condition condition' : Expr}
      {thenBranch thenBranch' elseBranch elseBranch' one other : List Stmt}
      (test : condition.Recast condition') (taken : Recast false thenBranch thenBranch')
      (notTaken : Recast false elseBranch elseBranch')
      (falls : next = true → (Stmt.cond condition thenBranch elseBranch).isTerminal = false)
      (later : Recast next one other) :
      Recast opened (.cond condition thenBranch elseBranch :: one)
        (.cond condition' thenBranch' elseBranch' :: other)
  | bind {opened : Bool} {value value' : Expr} {body body' : List Stmt} (pattern : Pattern)
      (recast : value.Recast value') (inside : Recast true body body') :
      Recast opened [.bind pattern value body] [.bind pattern value' body']
  /-- A write to a field. -/
  | write {opened : Bool} {handle : Handle} {owner : Owner} {value value' : Expr}
      {body body' : List Stmt} (access : IsAccess handle owner) (recast : value.Recast value')
      (inside : Recast true body body') :
      Recast opened
        [.bind (.tuple ((ObjectModel.slotNames handle).map some)) handle.base
          (.assign owner.name
            (.tuple (((ObjectModel.slotNames handle).map .var).set handle.slot value)) :: body)]
        [.bind handle.pattern handle.base (.assign handle.cell value' :: body')]
  | tie {one other : List Stmt} {stmt : Stmt} (isTie : IsTie stmt) (later : Recast true one other) :
      Recast true one (stmt :: other)

namespace Recast

variable {opened next : Bool} {one other : List Stmt}

theorem refl (stmts : List Stmt) : Recast opened stmts stmts := by
  induction stmts generalizing opened with
  | nil => exact .nil
  | cons stmt rest ih =>
      have never : false = true → stmt.isTerminal = false := nofun
      exact .cons (.same stmt) never ih

/-- Code is empty where the other code is, if control does not come from before. -/
theorem eq_nil_iff (recast : Recast false one other) : one = [] ↔ other = [] := by
  cases recast <;> simp

/-- Nothing is recast to nothing only. -/
theorem eq_nil_of_nil (recast : Recast opened one []) : one = [] := by
  cases recast
  rfl

theorem opened_of_nil (recast : Recast opened [] other) (some : other ≠ []) : opened = true := by
  cases recast with
  | nil => exact absurd rfl some
  | tie => rfl

/-- Statements are terminal if the last of them is. -/
theorem allTerminal_cons {stmt : Stmt} {rest : List Stmt} : Stmt.allTerminal (stmt :: rest) =
    if rest = [] then stmt.isTerminal else Stmt.allTerminal rest := by
  cases rest <;> simp [Stmt.allTerminal]

theorem allTerminal_cons_eq {stmt stmt' : Stmt} (here : stmt.isTerminal = stmt'.isTerminal)
    (falls : next = true → stmt.isTerminal = false) (later : Recast next one other)
    (same : Stmt.allTerminal one = Stmt.allTerminal other) :
    Stmt.allTerminal (stmt :: one) = Stmt.allTerminal (stmt' :: other) := by
  rw [allTerminal_cons, allTerminal_cons]
  by_cases none : other = []
  · subst none
    rw [later.eq_nil_of_nil, if_pos rfl, if_pos rfl, here]
  · by_cases ends : one = []
    · subst ends
      rw [if_pos rfl, if_neg none, falls (later.opened_of_nil none), ← same]
      rfl
    · rw [if_neg ends, if_neg none, same]

/-- Code is terminal where the other code is. -/
theorem allTerminal_eq (recast : Recast opened one other) :
    Stmt.allTerminal one = Stmt.allTerminal other := by
  induction recast with
  | nil => rfl
  | cons here falls later ih => exact allTerminal_cons_eq here.isTerminal_eq falls later ih
  | cond test taken notTaken falls later ihTaken ihNotTaken ih =>
      refine allTerminal_cons_eq ?_ falls later ih
      rw [Stmt.isTerminal, Stmt.isTerminal, ihTaken, ihNotTaken]
  | bind pattern recast inside ih => simpa only [Stmt.allTerminal, Stmt.isTerminal] using ih
  | write access recast inside ih =>
      simp only [Stmt.allTerminal, Stmt.isTerminal]
      exact allTerminal_cons_eq rfl (fun _ => rfl) inside ih
  | @tie one other stmt isTie later ih =>
      -- A tie is not terminal, and where nothing comes after it the other code has ended too.
      rw [allTerminal_cons, isTie.isTerminal_eq, ih]
      split
      · next none => rw [none]; rfl
      · rfl

end Recast

/-! ## Scripts -/

theorem Script.stmts_ofStmts (stmts : List Stmt) : (ofStmts stmts).stmts = stmts := by
  induction stmts with
  | nil => rfl
  | cons stmt rest ih => exact congrArg (stmt :: ·) ih

/-- A script for the functional model and the same one for the mutable model. As for statements,
`opened` says that control may come from before, and `falls` that it comes out of the end. -/
inductive Script.Recast : (opened : Bool) → Script → Script → (falls : Bool) → Prop
  | nil {opened falls : Bool} (through : falls = true → opened = true) : Recast opened [] [] falls
  | stmt {opened next falls : Bool} {stmt stmt' : Stmt} {one other : Script}
      (here : stmt.Recast stmt') (goes : next = true → stmt.isTerminal = false)
      (later : Recast next one other falls) :
      Recast opened (.stmt stmt :: one) (.stmt stmt' :: other) falls
  | cond {opened next falls : Bool} {condition condition' : Expr}
      {thenBranch thenBranch' elseBranch elseBranch' : List Stmt} {one other : Script}
      (test : condition.Recast condition') (taken : Target.Recast false thenBranch thenBranch')
      (notTaken : Target.Recast false elseBranch elseBranch')
      (goes : next = true → (Stmt.cond condition thenBranch elseBranch).isTerminal = false)
      (later : Recast next one other falls) :
      Recast opened (.stmt (.cond condition thenBranch elseBranch) :: one)
        (.stmt (.cond condition' thenBranch' elseBranch') :: other) falls
  | bind {opened falls : Bool} {value value' : Expr} {one other : Script} (pattern : Pattern)
      (recast : value.Recast value') (later : Recast true one other falls) :
      Recast opened (.bind pattern value :: one) (.bind pattern value' :: other) falls
  | write {opened falls : Bool} {handle : Handle} {owner : Owner} {value value' : Expr}
      {one other : Script} (access : IsAccess handle owner) (recast : value.Recast value')
      (later : Recast true one other falls) :
      Recast opened
        (.bind (.tuple ((ObjectModel.slotNames handle).map some)) handle.base ::
          Script.assign owner.name
            (.tuple (((ObjectModel.slotNames handle).map .var).set handle.slot value)) :: one)
        (.bind handle.pattern handle.base :: Script.assign handle.cell value' :: other) falls
  | tie {falls : Bool} {one other : Script} {stmt : Stmt} (isTie : IsTie stmt)
      (later : Recast true one other falls) : Recast true one (.stmt stmt :: other) falls

namespace Script.Recast

variable {opened falls next : Bool} {one other one' other' : Script}

/-- More may be assumed about where control comes from. -/
theorem mono (recast : Recast opened one other falls) (more : opened = true → next = true) :
    Recast next one other falls := by
  cases recast with
  | nil through => exact .nil fun falls => more (through falls)
  | stmt here goes later => exact .stmt here goes later
  | cond test taken notTaken goes later => exact .cond test taken notTaken goes later
  | bind pattern recast later => exact .bind pattern recast later
  | write access recast later => exact .write access recast later
  | tie isTie later =>
      rw [more rfl]
      exact .tie isTie later

/-- Scripts in a row are recast if both are. -/
theorem append (recast : Recast opened one other falls) (later : Recast falls one' other' next) :
    Recast opened (one ++ one') (other ++ other') next := by
  induction recast with
  | nil through => exact later.mono through
  | stmt here goes _ ih => exact .stmt here goes (ih later)
  | cond test taken notTaken goes _ ih => exact .cond test taken notTaken goes (ih later)
  | bind pattern recast _ ih => exact .bind pattern recast (ih later)
  | write access recast _ ih => exact .write access recast (ih later)
  | tie isTie _ ih => exact .tie isTie (ih later)

/-- A conditional after which no names are tied again. -/
theorem branch {condition condition' : Expr}
    {thenBranch thenBranch' elseBranch elseBranch' : List Stmt} (test : condition.Recast condition')
    (taken : Target.Recast false thenBranch thenBranch')
    (notTaken : Target.Recast false elseBranch elseBranch')
    (later : Recast false one other falls) :
    Recast opened (.stmt (.cond condition thenBranch elseBranch) :: one)
      (.stmt (.cond condition' thenBranch' elseBranch') :: other) falls := by
  have never : false = true →
    (Stmt.cond condition thenBranch elseBranch).isTerminal = false := nofun
  exact .cond test taken notTaken never later

/-- It may be left open whether control comes out of the end. -/
theorem ends (recast : Recast opened one other falls) : Recast opened one other false := by
  have none : Recast falls [] [] false := .nil nofun
  have whole := recast.append none
  rwa [List.append_nil, List.append_nil] at whole

/-- The same script is for both models. -/
theorem refl (script : Script) : Recast opened script script false := by
  induction script generalizing opened with
  | nil => exact .nil nofun
  | cons step rest ih =>
      cases step with
      | stmt stmt =>
          have never : false = true → stmt.isTerminal = false := nofun
          exact .stmt (.same stmt) never ih
      | bind pattern value => exact .bind pattern (.same value) ih

/-- Steps that end with a binding go on. -/
theorem named (script : Script) (pattern : Pattern) (value : Expr) :
    Recast opened (script ++ [.bind pattern value]) (script ++ [.bind pattern value]) true :=
  (refl script).append (.bind pattern (.same value) (.nil fun _ => rfl))

/-- The same statements, none of which is terminal, go on where control comes to them. -/
theorem refl_of_not_isTerminal {stmts : List Stmt}
    (goes : ∀ stmt ∈ stmts, stmt.isTerminal = false) :
    Recast opened (ofStmts stmts) (ofStmts stmts) opened := by
  induction stmts with
  | nil => exact .nil id
  | cons stmt rest ih =>
      exact .stmt (.same stmt) (fun _ => goes stmt List.mem_cons_self)
        (ih fun other member => goes other (List.mem_cons_of_mem _ member))

/-- Where control comes to, names may be tied again. -/
theorem ties {stmts : List Stmt} (tie : ∀ stmt ∈ stmts, IsTie stmt) :
    Recast true [] (ofStmts stmts) true := by
  induction stmts with
  | nil => exact .nil id
  | cons stmt rest ih =>
      exact .tie (tie stmt List.mem_cons_self)
        (ih fun other member => tie other (List.mem_cons_of_mem _ member))

/-- The statements of recast scripts are recast. -/
theorem stmts (recast : Recast opened one other falls) :
    Target.Recast opened one.stmts other.stmts := by
  induction recast with
  | nil => exact .nil
  | stmt here goes _ ih => exact .cons here goes ih
  | cond test taken notTaken goes _ ih => exact .cond test taken notTaken goes ih
  | bind pattern recast _ ih => exact .bind pattern recast ih
  | write access recast _ ih => exact .write access recast ih
  | tie isTie _ ih => exact .tie isTie ih

end Script.Recast

/-- A script is terminal if its statements are. -/
theorem Script.allTerminal_stmts (script : Script) :
    Stmt.allTerminal script.stmts = script.isTerminal := by
  induction script with
  | nil => rfl
  | cons step rest ih =>
      have last : isTerminal (step :: rest) =
          if rest = [] then isTerminal [step] else isTerminal rest := by
        cases rest with
        | nil => rfl
        | cons second others =>
            simp only [isTerminal, List.getLast?_cons_cons, reduceCtorEq, if_false]
      have none : stmts rest = [] ↔ rest = [] := by
        cases rest with
        | nil => simp [stmts]
        | cons second others => cases second <;> simp [stmts]
      rw [last, ← ih]
      cases step with
      | stmt stmt =>
          simp only [stmts, Recast.allTerminal_cons, none, isTerminal, List.getLast?_singleton]
      | bind pattern value =>
          simp only [stmts, Stmt.allTerminal, Stmt.isTerminal]
          split
          · next none => rw [none]; rfl
          · rfl

/-- Scripts that are recast are terminal alike. -/
theorem Script.Recast.isTerminal_eq {opened falls : Bool} {one other : Script}
    (recast : Recast opened one other falls) : one.isTerminal = other.isTerminal := by
  rw [← allTerminal_stmts, ← allTerminal_stmts, recast.stmts.allTerminal_eq]

/-! ## Functions -/

/-- A function for the functional model and the same one for the mutable model. -/
structure Function.Recast (one other : Function) : Prop where
  name : one.name = other.name
  params : one.params = other.params
  body : Target.Recast false one.body other.body

end Target

end GotoFree
