import GotoFree.Target.Scoping

/-!
# Scoped scripts

Where every name stands for one kind of thing only, a context is given by its names (`Kinds.of`). A
script in such a context binds names as what they always stand for (`Script.Fits`), so its
statements are scoped (`Script.Fits.stmts`), and it may be followed by another one
(`Script.fits_append_iff`).
-/

namespace GotoFree.Target

/-- What each name stands for, in whatever context. -/
abbrev Kinds := String → Kind

namespace Kinds

variable {kinds : Kinds} {names more : List String} {name : String}

/-- The context of some names. -/
def of (kinds : Kinds) (names : List String) : Context := names.map fun name => (name, kinds name)

/-- A name in scope is found with its kind. -/
theorem lookup_of (member : name ∈ names) : (kinds.of names).lookup name = some (kinds name) := by
  induction names with
  | nil => cases member
  | cons first rest ih =>
      rw [of, List.map_cons, List.lookup_cons]
      by_cases same : name = first
      · rw [same, beq_self_eq_true]
      · rw [beq_eq_false_iff_ne.2 same]
        exact ih ((List.mem_cons.1 member).resolve_left same)

theorem lookup_of_eq_some_iff {kind : Kind} :
    (kinds.of names).lookup name = some kind ↔ name ∈ names ∧ kinds name = kind := by
  constructor
  · intro found
    by_cases member : name ∈ names
    · rw [lookup_of member] at found
      exact ⟨member, Option.some.inj found⟩
    · have none : (kinds.of names).lookup name = none := by
        rw [List.lookup_eq_none_iff]
        intro entry among
        obtain ⟨other, isName, rfl⟩ := List.mem_map.1 among
        rw [bne_iff_ne]
        rintro rfl
        exact member isName
      cases none.symm.trans found
  · rintro ⟨member, rfl⟩
    exact lookup_of member

/-- More names extend a context. -/
theorem extends_of (subset : names ⊆ more) : (kinds.of more).Extends (kinds.of names) := by
  intro name kind found
  obtain ⟨member, same⟩ := lookup_of_eq_some_iff.1 found
  exact lookup_of_eq_some_iff.2 ⟨subset member, same⟩

end Kinds

/-- The names that a pattern binds. -/
def Pattern.names : Pattern → List String
  | .var name => [name]
  | .tuple names => names.filterMap id

namespace Script

/-- The names in scope after a script. -/
def opened (names : List String) : Script → List String
  | [] => names
  | .stmt _ :: rest => opened names rest
  | .bind pattern _ :: rest => opened (pattern.names ++ names) rest

variable (kinds : Kinds) (slots : Kind) (signatures : List Signature)

/-- The steps of a script are scoped, and its bindings make of names what they stand for. -/
def Fits (names : List String) : Script → Prop
  | [] => True
  | .stmt stmt :: rest => stmt.Scoped slots signatures (kinds.of names) ∧ Fits names rest
  | .bind pattern value :: rest => value.Scoped signatures (kinds.of names) ∧
      pattern.context slots value = kinds.of pattern.names ∧ Fits (pattern.names ++ names) rest

variable {kinds slots signatures} {names more : List String} {script other : Script}

/-- Scripts in a row open the names of both. -/
theorem opened_append : opened names (script ++ other) = opened (opened names script) other := by
  induction script generalizing names with
  | nil => rfl
  | cons step rest ih =>
      cases step with
      | stmt => exact ih
      | bind => exact ih

/-- A script hides none of the names in scope. -/
theorem subset_opened : names ⊆ opened names script := by
  induction script generalizing names with
  | nil => exact List.Subset.refl _
  | cons step rest ih =>
      cases step with
      | stmt => exact ih
      | bind => exact List.Subset.trans (List.subset_append_right _ _) ih

theorem opened_ofStmts {stmts : List Stmt} : opened names (ofStmts stmts) = names := by
  induction stmts with
  | nil => rfl
  | cons stmt rest ih => exact ih

/-- Scripts in a row fit if each does where it stands. -/
theorem fits_append_iff : Fits kinds slots signatures names (script ++ other) ↔
    Fits kinds slots signatures names script ∧
      Fits kinds slots signatures (opened names script) other := by
  induction script generalizing names with
  | nil => simp [Fits, opened]
  | cons step rest ih =>
      cases step with
      | stmt => simp only [List.cons_append, Fits, opened, ih, and_assoc]
      | bind => simp only [List.cons_append, Fits, opened, ih, and_assoc]

/-- Statements fit if each of them is scoped. -/
theorem fits_ofStmts_iff {stmts : List Stmt} :
    Fits kinds slots signatures names (ofStmts stmts) ↔
      ∀ stmt ∈ stmts, stmt.Scoped slots signatures (kinds.of names) := by
  induction stmts with
  | nil => simp [ofStmts, Fits]
  | cons stmt rest ih => simpa [ofStmts, Fits] using fun _ => ih

/-- The statements of a script are scoped. -/
theorem Fits.stmts (fits : Fits kinds slots signatures names script) :
    ∀ stmt ∈ script.stmts, stmt.Scoped slots signatures (kinds.of names) := by
  induction script generalizing names with
  | nil => simp [Script.stmts]
  | cons step rest ih =>
      cases step with
      | stmt stmt => exact List.forall_mem_cons.2 ⟨fits.1, ih fits.2⟩
      | bind pattern value =>
          refine List.forall_mem_singleton.2 (.bind fits.1 ?_)
          rw [fits.2.1, Kinds.of, Kinds.of, ← List.map_append]
          exact ih fits.2.2

/-- A name may be bound to a value. -/
theorem fits_bindName {name : String} {value : Expr}
    (inner : value.Scoped signatures (kinds.of names))
    (computed : ∀ content, value ≠ .mkRef content) (plain : kinds name = .plain) :
    Fits kinds slots signatures names [bindName name value] := by
  refine ⟨inner, ?_, trivial⟩
  rw [Pattern.context, Pattern.names, Kinds.of, List.map_singleton, plain]
  exact computed

/-- A name may be bound to a new cell. -/
theorem fits_bindCell {name : String} {content : Expr}
    (inner : content.Scoped signatures (kinds.of names)) (cell : kinds name = .cell) :
    Fits kinds slots signatures names [bindCell name content] := by
  refine ⟨.mkRef inner, ?_, trivial⟩
  rw [Pattern.context, Pattern.names, Kinds.of, List.map_singleton, cell]

/-- The slots of an object that is taken apart get names. -/
theorem fits_bindTuple {names : List String} {components : List (Option String)} {value : Expr}
    (inner : value.Scoped signatures (kinds.of names))
    (are : ∀ name ∈ components.filterMap id, kinds name = slots) :
    Fits kinds slots signatures names [.bind (.tuple components) value] := by
  refine ⟨inner, ?_, trivial⟩
  rw [Pattern.context, Pattern.names, Kinds.of]
  induction components with
  | nil => rfl
  | cons first rest ih =>
      cases first with
      | none => exact ih are
      | some name =>
          rw [List.filterMap_cons_some (by rfl), List.filterMap_cons_some (by rfl), List.map_cons,
            are name (by simp), ih fun other member => are other (List.mem_cons_of_mem _ member)]

end Script

end GotoFree.Target
