import GotoFree.Proofs.Recast
import GotoFree.Proofs.Standing
import GotoFree.Target.Draft

/-!
# Finished drafts

Closing the blocks of a draft puts each binding around all that was added after it, and the draft
tells before whether the finished statements are terminal or empty. A script that got the same edits
has the same statements and tells the same of them (`Target.Draft.finish_edited`).
-/

namespace GotoFree.Target

/-- A block is terminal if its last statement is. -/
theorem Stmt.allTerminal_concat {stmts : List Stmt} {stmt : Stmt} :
    Stmt.allTerminal (stmts ++ [stmt]) = stmt.isTerminal := by
  induction stmts with
  | nil => rfl
  | cons first rest ih =>
      rw [List.cons_append, Recast.allTerminal_cons, if_neg (by simp), ih]

namespace Draft

variable {draft : Draft} {stmts more : List Stmt} {stmt : Stmt} {pattern : Pattern} {value : Expr}

@[simp] theorem extend_nil : draft.extend [] = draft := by
  obtain ⟨front, opened⟩ := draft
  cases opened <;> simp [extend]

/-- Two extensions are one by both lists. -/
@[simp] theorem extend_extend :
    (draft.extend stmts).extend more = draft.extend (stmts ++ more) := by
  obtain ⟨front, opened⟩ := draft
  cases opened <;> simp [extend]

/-- An extension opens no block. -/
@[simp] theorem length_opened_extend :
    (draft.extend stmts).opened.length = draft.opened.length := by
  obtain ⟨front, opened⟩ := draft
  cases opened <;> simp [extend]

@[simp] theorem top_extend : (draft.extend stmts).top = draft.top ++ stmts := by
  obtain ⟨front, opened⟩ := draft
  cases opened <;> simp [extend, top]

/-- Closing the innermost block makes it a statement of the block around it. -/
theorem closeInner_cons {front : List Stmt} {block : OpenBlock} {around : List OpenBlock} :
    closeInner ⟨front, block :: around⟩ =
      extend ⟨front, around⟩ [.bind block.pattern block.value block.stmts] := rfl

/-- What is added behind a binding stands in its block. -/
theorem closeInner_bind_extend :
    ((draft.bind pattern value).extend stmts).closeInner =
      draft.push (.bind pattern value stmts) := by
  simp [bind, extend, closeInner]

/-- A draft that is finished has its innermost block closed at first. -/
theorem finish_closeInner : draft.closeInner.finish = draft.finish := by
  obtain ⟨front, opened⟩ := draft
  cases opened with
  | nil => rfl
  | cons block around => simp [finish, closeInner, closeInners, push]

/-- Edits of a draft add what they make to its innermost block. -/
theorem finish_foldl_edit (edits : List Edit) :
    (edits.foldl Draft.edit draft).finish = (draft.extend (nested edits)).finish := by
  have binds (draft : Draft) (pattern : Pattern) (value : Expr) (stmts : List Stmt) :
      ((draft.bind pattern value).extend stmts).finish =
        (draft.extend [.bind pattern value stmts]).finish := by
    rw [← finish_closeInner, closeInner_bind_extend, push]
  induction edits generalizing draft with
  | nil => rw [nested, extend_nil, List.foldl_nil]
  | cons first later ih =>
      rw [List.foldl_cons, ih]
      cases first with
      | push | extend | assign | ret =>
          simp only [edit, push, assign, ret, extend_extend, nested, List.cons_append,
            List.nil_append]
      | bind | bindName | bindCell => exact binds _ _ _ _

/-! ## Before finishing -/

/-- What holds of a draft without open blocks, and of any draft if it holds when the innermost block
is closed, holds of all drafts. -/
theorem close_induction {holds : Draft → Prop} (whole : ∀ front, holds ⟨front, []⟩)
    (closes : ∀ draft, draft.opened ≠ [] → holds draft.closeInner → holds draft) (draft : Draft) :
    holds draft := by
  induction count : draft.opened.length generalizing draft with
  | zero =>
      obtain ⟨front, opened⟩ := draft
      cases List.eq_nil_of_length_eq_zero count
      exact whole front
  | succ count ih =>
      obtain ⟨front, opened⟩ := draft
      cases opened with
      | nil => cases count
      | cons block around =>
          refine closes _ (List.cons_ne_nil _ _) (ih _ ?_)
          simpa [closeInner, push] using count

/-- The innermost block decides whether the finished statements are terminal: all others end in the
binding of the next one. -/
theorem allTerminal_finish : Stmt.allTerminal draft.finish = draft.isTerminal := by
  induction draft using close_induction with
  | whole front => rfl
  | closes draft opened ih =>
      obtain ⟨front, _ | ⟨block, around⟩⟩ := draft
      · exact absurd rfl opened
      · rw [← finish_closeInner, ih, isTerminal, isTerminal, closeInner_cons, top_extend,
          Stmt.allTerminal_concat, Stmt.isTerminal]
        rfl

/-- A block that is closed is a statement of the one around it. -/
theorem top_closeInner_ne_nil (opened : draft.opened ≠ []) : draft.closeInner.top ≠ [] := by
  obtain ⟨front, _ | ⟨block, around⟩⟩ := draft
  · exact absurd rfl opened
  · rw [closeInner_cons, top_extend]
    exact List.concat_ne_nil _ _

/-- A draft in which something has been added to the innermost block is not finished empty. -/
theorem finish_ne_nil (added : draft.top ≠ []) : draft.finish ≠ [] := by
  induction draft using close_induction with
  | whole front => exact added
  | closes draft opened ih =>
      rw [← finish_closeInner]
      exact ih (top_closeInner_ne_nil opened)

/-- A draft is empty if what it is finished to is. -/
theorem isEmpty_finish : draft.finish.isEmpty = draft.isEmpty := by
  obtain ⟨front, _ | ⟨block, around⟩⟩ := draft
  · rfl
  · have filled : finish ⟨front, block :: around⟩ ≠ [] := by
      rw [← finish_closeInner]
      exact finish_ne_nil (top_closeInner_ne_nil (List.cons_ne_nil _ _))
    simpa [isEmpty] using filled

end Draft

/-! ## Scripts -/

/-- The statements of some edits nest as the edits do. -/
theorem Script.stmts_edits (edits : List Edit) :
    Script.stmts (edits.flatMap Edit.steps) = nested edits := by
  induction edits with
  | nil => rfl
  | cons first later ih =>
      rw [List.flatMap_cons]
      cases first with
      | extend stmts => rw [Edit.steps, stmts_ofStmts_append, ih, nested]
      | push | bind | bindName | bindCell | assign | ret =>
          simp only [Edit.steps, List.cons_append, List.nil_append, Script.stmts, Script.bindName,
            Script.bindCell, Script.assign, Script.ret, ih, nested]

theorem Script.isEmpty_stmts (script : Script) : script.stmts.isEmpty = script.isEmpty := by
  cases script with
  | nil => rfl
  | cons step rest => cases step <;> rfl

/-- Finishing a draft nests its bindings: each one is around exactly what was added after it, and
the other statements stand in the order in which they were added. Before that, the draft tells
whether the finished statements are terminal or empty. A script with the same edits has these
statements and tells the same. -/
theorem Draft.finish_edited (edits : List Edit) :
    let draft := edits.foldl Draft.edit .fresh
    let script : Script := edits.flatMap Edit.steps
    draft.finish = nested edits ∧
      draft.isTerminal = Stmt.allTerminal draft.finish ∧
      draft.isEmpty = draft.finish.isEmpty ∧
      script.stmts = draft.finish ∧
      script.isTerminal = draft.isTerminal ∧
      script.isEmpty = draft.isEmpty := by
  intro draft script
  have finished : draft.finish = nested edits := finish_foldl_edit edits
  have same : script.stmts = draft.finish := (Script.stmts_edits edits).trans finished.symm
  refine ⟨finished, allTerminal_finish.symm, isEmpty_finish.symm, same, ?_, ?_⟩
  · rw [← Script.allTerminal_stmts, same, allTerminal_finish]
  · rw [← Script.isEmpty_stmts, same, isEmpty_finish]

end GotoFree.Target
