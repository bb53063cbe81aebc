import GotoFree.Proofs.MadeUpNames
import GotoFree.Proofs.ScopedInstrs
import GotoFree.Proofs.Shadowing

/-!
# The names that instructions bind

An instruction binds temporaries with its number and, where it gives a local its first value, that
local (`Job.draws_instr`). The temporaries of its value are handed out before those of the place
that it stores to, so they differ: what a step binds is told by the temporaries before and after it
(`Lower.Draws`).
-/

namespace GotoFree

open Target (Script Step Stmt)

/-! ## Temporaries that are handed out -/

namespace Lower

variable {α β : Type}

/-- What a step answers, told by the temporaries before and after it. -/
def Draws (step : Lower α) (post : Temporaries → α → Temporaries → Prop) : Prop :=
  ∀ progress answer after, step progress = .ok (answer, after) →
    post progress.temporaries answer after.temporaries

/-- A step that hands out no temporaries. -/
abbrev DrawsNone (step : Lower α) : Prop := Draws step fun before _ after => after = before

namespace Draws

variable {post : Temporaries → β → Temporaries → Prop}

theorem pure {value : β} (here : ∀ temporaries, post temporaries value temporaries) :
    Draws (pure value : Lower β) post := by
  rintro progress answer after ⟨⟩
  exact here _

/-- Two steps in a row draw one after the other. -/
theorem bind {first : Lower α} {rest : α → Lower β} {known : Temporaries → α → Temporaries → Prop}
    (one : Draws first known)
    (other : ∀ value, Draws (rest value) fun middle answer after =>
      ∀ before, known before value middle → post before answer after) :
    Draws (first >>= rest) post := by
  intro progress answer after made
  obtain ⟨value, between, here, later⟩ := stepped_bind_iff.1 made
  exact other value between answer after later _ (one progress value between here)

/-- A first part that hands out no temporaries, and whose answer does not matter. -/
theorem skip {first : Lower α} {rest : α → Lower β} (none : DrawsNone first)
    (other : ∀ value, Draws (rest value) post) : Draws (first >>= rest) post :=
  none.bind fun value progress answer after made _ same =>
    same ▸ other value progress answer after made

theorem imp {step : Lower β} {stronger : Temporaries → β → Temporaries → Prop}
    (draws : Draws step stronger)
    (weaken : ∀ before answer after, stronger before answer after → post before answer after) :
    Draws step post :=
  fun progress answer after made => weaken _ _ _ (draws progress answer after made)

theorem reject {reason : Rejection} : Draws (reject reason : Lower β) post := nofun

theorem throw {failure : Failure} : Draws (throw failure : Lower β) post := nofun

/-- What a check has answered is known to the rest. -/
theorem check_bind {result : Except Rejection α} {rest : α → Lower β}
    (other : ∀ value, result = .ok value → Draws (rest value) post) :
    Draws (check result >>= rest) post := by
  intro progress answer after made
  obtain ⟨value, between, here, later⟩ := stepped_bind_iff.1 made
  obtain ⟨found, rfl⟩ := check_apply_iff.1 here
  exact other value found _ answer after later

theorem get : Draws (get : Lower Progress) fun before progress after =>
    progress.temporaries = before ∧ after = before := by
  rintro progress answer after ⟨⟩
  exact ⟨rfl, rfl⟩

/-- A fresh name is counted under its stem, and under no other one. -/
theorem fresh {stem : String} : Draws (fresh stem) fun before name after =>
    name = Temporaries.named before.unit stem (before.count stem) ∧ after.unit = before.unit ∧
      ∀ other, after.count other =
        if stem = other then before.count stem + 1 else before.count other := by
  rintro progress answer after ⟨⟩
  exact ⟨rfl, rfl, fun other => Temporaries.count_fresh⟩

end Draws

namespace DrawsNone

theorem request {id : MethodId} {method : Method} : DrawsNone (request id method) := by
  rintro progress answer after ⟨⟩
  rfl

theorem warn {warning : String} : DrawsNone (warn warning) := by
  rintro progress answer after ⟨⟩
  rfl

theorem flag {coord : Coord} : DrawsNone (flag coord) := by
  rintro progress answer after ⟨⟩
  rfl

theorem addHelper {function : Target.Function} : DrawsNone (addHelper function) := by
  rintro progress answer after ⟨⟩
  rfl

/-- Steps for the values of a list draw nothing if none of them does. -/
theorem mapM {step : α → Lower β} {list : List α} (each : ∀ a ∈ list, DrawsNone (step a)) :
    DrawsNone (list.mapM step) := by
  induction list with
  | nil => exact .pure fun _ => rfl
  | cons first rest ih =>
      rw [List.mapM_cons]
      exact (each first (by simp)).skip fun value =>
        (ih fun a member => each a (List.mem_cons_of_mem _ member)).skip fun values =>
          .pure fun _ => rfl

end DrawsNone

end Lower

namespace Temporaries

/-- Steps bind temporaries that have been handed out in the meantime, each of them once. -/
structure Prepares (before after : Temporaries) (steps : Script) : Prop where
  flat : steps.Flat
  distinct : steps.bound.Nodup
  drawn : ∀ name ∈ steps.bound, after.Drawn name
  unit : after.unit = before.unit

theorem Prepares.nil {temporaries : Temporaries} : Prepares temporaries temporaries [] :=
  ⟨Script.flat_nil, .nil, by simp, rfl⟩

/-- Steps bind temporaries that were not handed out before, each of them once. -/
structure Adds (before : Temporaries) (steps : Script) : Prop where
  flat : steps.Flat
  distinct : steps.bound.Nodup
  fresh : ∀ name ∈ steps.bound, IsTemporary before.unit name ∧ ¬ before.Drawn name

end Temporaries

/-! ## Slots -/

/-- A pattern names the slot, if there is one. -/
theorem Handle.names_pattern {handle : Handle} :
    handle.pattern.names.Nodup ∧ ∀ name ∈ handle.pattern.names, name = handle.cell := by
  refine ⟨?_, fun name member => (Handle.mem_names_pattern.1 member).2⟩
  rw [Handle.pattern, Target.Pattern.names, List.filterMap_map]
  refine List.nodup_range.filterMap fun one two name isOne isTwo => ?_
  simp only [Function.comp_apply, id_eq, Option.mem_def] at isOne isTwo
  split at isOne
  · next here =>
    split at isTwo
    · next there => exact here.trans there.symm
    · cases isTwo
  · cases isOne

namespace ObjectModel

/-- The slots of an object have different names. -/
theorem nodup_slotNames {handle : Handle} : (slotNames handle).Nodup :=
  List.nodup_range.map fun _ _ same => (append_toString_inj same).2

theorem names_slots {handle : Handle} :
    (Target.Pattern.tuple ((slotNames handle).map some)).names = slotNames handle := by
  simp [Target.Pattern.names, List.filterMap_map]

end ObjectModel

open Temporaries (named)

namespace Job

variable {job : Job} {scope after : Scope} {source : Instr} {id : BlockId} {number : Nat}
  {later : Agenda}

/-! ## Fields -/

section Fields

variable {base : String} {field : FieldRef} {possibleTypes : SortedSet String} {access : Access}
  {before next : Temporaries}

/-- An access has been opened under the next temporaries with its stems. -/
structure Draw (before next : Temporaries) (access : Access) : Prop where
  unit : next.unit = before.unit
  cell : access.handle.cell = named before.unit "__field" (before.count "__field")
  counted : before.count "__field" < next.count "__field"
  object : access.before = [] ∨ before.count "__base_ptr" < next.count "__base_ptr" ∧
    ∃ value, access.before =
      [Script.bindName (named before.unit "__base_ptr" (before.count "__base_ptr")) value]

/-- An access to a field draws the name of its cell, after that of the object. -/
theorem draws_openField :
    Lower.Draws (job.openField scope base field possibleTypes source)
      fun before access next => Draw before next access := by
  unfold openField
  refine .check_bind fun place _ => .check_bind fun binding _ => ?_
  cases binding with
  | mutable =>
      refine Lower.Draws.fresh.bind fun object => Lower.Draws.fresh.bind fun cell => .pure ?_
      rintro next middle ⟨rfl, cellUnit, cellCount⟩ before ⟨rfl, unit, count⟩
      refine ⟨cellUnit.trans unit, ?_, ?_, .inr ⟨?_, .contentOf base, rfl⟩⟩
      · rw [unit, count]
        simp
      · simp [cellCount, count]
      · simp [cellCount, count]
  | const =>
      refine Lower.Draws.fresh.bind fun cell => .pure ?_
      rintro next before ⟨rfl, unit, count⟩
      exact ⟨unit, rfl, by simp [count], .inl rfl⟩

/-- What stands before an access is there to be handed out, and has been afterwards. -/
theorem Draw.prepares (draw : Draw before next access) : before.Prepares next access.before := by
  obtain none | ⟨counted, value, named⟩ := draw.object
  · rw [none]
    exact ⟨Script.flat_nil, .nil, by simp, draw.unit⟩
  · rw [named]
    refine ⟨by simp, by simp, ?_, draw.unit⟩
    rw [Script.bound_bindName, Script.bound_nil, List.forall_mem_singleton]
    exact .inl ⟨"__base_ptr", by decide, _, counted, by rw [draw.unit]⟩

/-- What comes before an access binds the names that were drawn for it, and no others. -/
theorem Draw.adds (draw : Draw before next access) : before.Adds access.before := by
  obtain none | ⟨-, value, named⟩ := draw.object
  · rw [none]
    exact ⟨Script.flat_nil, .nil, by simp⟩
  · rw [named]
    refine ⟨by simp, by simp, ?_⟩
    rw [Script.bound_bindName, Script.bound_nil, List.forall_mem_singleton]
    exact ⟨Temporaries.isTemporary_of_access (by decide), Temporaries.not_drawn_named (by decide)⟩

/-- The object of an access has another name than what is named after its slot. -/
theorem Draw.apart {rest : String} (draw : Draw before next access) :
    access.handle.cell ++ rest ∉ access.before.bound := by
  obtain none | ⟨-, value, isNamed⟩ := draw.object
  · simp [none]
  · rw [isNamed, Script.bound_bindName, Script.bound_nil, List.mem_singleton, draw.cell]
    intro same
    have stems := @Temporaries.access_stem_inj "__field" before.unit _ _ "__base_ptr" rest ""
      (by decide) (by decide) (by simpa using same)
    exact absurd stems (by decide)

/-- Tying an object again binds nothing. -/
theorem bindsNone_tieAgain {model : ObjectModel} {handle : Handle} {owner : Owner} :
    ∀ stmt ∈ model.tieAgain handle owner, stmt.BindsNone := by
  intro stmt member
  cases model with
  | functional => cases member
  | mutable =>
      rcases List.mem_cons.1 member with rfl | member
      · exact fun _ _ => .aliased
      · split at member
        · obtain rfl := List.mem_singleton.1 member
          exact fun _ _ => .aliased
        · cases member

/-- A field is read under temporaries. -/
theorem draws_fieldValue :
    Lower.Draws (job.fieldValue scope base field possibleTypes source) fun before computed after =>
      before.Prepares after computed.before ∧ ∀ stmt ∈ computed.after, stmt.BindsNone := by
  unfold fieldValue
  refine draws_openField.bind fun access => .pure ?_
  intro after before draw
  obtain ⟨flat, distinct, drawn, unit⟩ := draw.prepares
  obtain ⟨once, isCell⟩ := @Handle.names_pattern access.handle
  have prepares : before.Prepares after
      (access.before ++ [.bind access.handle.pattern access.handle.base]) := by
    refine ⟨by simpa using flat, ?_, ?_, unit⟩
    · simp only [Script.bound_append, Script.bound_bind, Script.bound_nil, List.append_nil]
      refine List.nodup_append'.2 ⟨distinct, once, fun name member isSlot => ?_⟩
      obtain rfl := isCell name isSlot
      exact @Draw.apart _ _ _ "" draw (by simpa using member)
    · simp only [Script.bound_append, Script.bound_bind, Script.bound_nil, List.append_nil]
      refine List.forall_mem_append.2 ⟨drawn, fun name member => ?_⟩
      rw [isCell name member, draw.cell, ← unit]
      exact .inl ⟨"__field", by decide, _, draw.counted, rfl⟩
  exact ⟨prepares, bindsNone_tieAgain⟩

/-- A field is written under temporaries that have not been handed out before. -/
theorem draws_storeField {value : Target.Expr} :
    Lower.Draws (job.storeField scope base field possibleTypes value source)
      fun before answer _ => before.Adds answer.1 ∧ ∀ stmt ∈ answer.2, stmt.BindsNone := by
  unfold storeField
  refine draws_openField.bind fun access => ?_
  split
  · next steps written =>
    refine .pure fun next before draw => ⟨?_, bindsNone_tieAgain⟩
    obtain ⟨flat, distinct, fresh⟩ := draw.adds
    -- The steps bind the slot itself, or a name for each slot of the object.
    have slots : steps.Flat ∧ steps.bound.Nodup ∧ ∀ name ∈ steps.bound,
        ∃ rest, name = access.handle.cell ++ rest ∧
          (rest = "" ∨ ∃ index : Nat, rest = "_" ++ toString index) := by
      cases isModel : job.setting.model with
      | mutable =>
          rw [isModel] at written
          cases written
          obtain ⟨once, isCell⟩ := @Handle.names_pattern access.handle
          refine ⟨by simp, by simpa using once, fun name member => ⟨"", ?_, .inl rfl⟩⟩
          simpa using isCell name (by simpa using member)
      | functional =>
          rw [isModel] at written
          unfold ObjectModel.write at written
          dsimp only at written
          split at written
          · cases written
          · split at written
            · cases written
            · cases written
              refine ⟨by simp, ?_, fun name member => ?_⟩
              · simpa [ObjectModel.names_slots] using ObjectModel.nodup_slotNames
              · rw [Script.bound_bind, ObjectModel.names_slots, Script.bound_assign,
                  Script.bound_nil, List.append_nil] at member
                obtain ⟨index, -, rfl⟩ := List.mem_map.1 member
                exact ⟨_, String.append_assoc, .inr ⟨index, rfl⟩⟩
    obtain ⟨flatSlots, distinctSlots, named⟩ := slots
    refine ⟨Script.flat_append.2 ⟨flat, flatSlots⟩, ?_, ?_⟩
    · rw [Script.bound_append, List.nodup_append']
      refine ⟨distinct, distinctSlots, fun name member isSlot => ?_⟩
      obtain ⟨rest, rfl, -⟩ := named name isSlot
      exact draw.apart member
    · rw [Script.bound_append]
      refine List.forall_mem_append.2 ⟨fresh, fun name member => ?_⟩
      have isStem : "__field" ∈ Temporaries.accessStems := by decide
      obtain ⟨rest, rfl, rfl | ⟨index, rfl⟩⟩ := named name member
      · rw [String.append_empty, draw.cell]
        exact ⟨Temporaries.isTemporary_of_access isStem, Temporaries.not_drawn_named isStem⟩
      · rw [← String.append_assoc, draw.cell]
        exact ⟨Temporaries.isTemporary_slot isStem, Temporaries.not_drawn_slot isStem⟩
  · exact .throw
  · exact .reject

end Fields

/-! ## Calls -/

section Calls

variable {site : Call}

/-- Asking for the name of a method draws no temporary. -/
theorem drawsNone_requestCallee {callee : MethodId} :
    Lower.DrawsNone (job.requestCallee callee) := by
  unfold requestCallee
  split
  · exact .request
  · exact .reject

/-- An arm of a dispatch function draws no temporary. -/
theorem drawsNone_dispatchArm {tag : Target.Expr} {args : List Target.Expr} {callee : MethodId}
    {classes : SortedSet String} : Lower.DrawsNone (job.dispatchArm tag args callee classes) := by
  unfold dispatchArm
  refine Lower.Draws.skip (.mapM fun className _ => ?_) fun tags =>
    drawsNone_requestCallee.skip fun function => ?_
  · split
    · exact .pure fun _ => rfl
    · exact .reject
  · split
    · exact .pure fun _ => rfl
    · exact .throw

/-- A dispatch function draws no temporary. -/
theorem drawsNone_dispatch {table : DispatchTable} :
    Lower.DrawsNone (job.dispatch site table source) := by
  unfold dispatch
  refine .check_bind fun width _ => (Lower.Draws.get.imp fun _ _ _ same => same.2).skip
    fun progress => ?_
  exact Lower.Draws.skip (.mapM fun entry _ => drawsNone_dispatchArm) fun arms =>
    Lower.DrawsNone.addHelper.skip fun _ => .pure fun _ => rfl

/-- The function of a call is found without drawing a temporary. -/
theorem drawsNone_calleeOf : Lower.DrawsNone (job.calleeOf site source) := by
  have direct {callee : MethodId} :
      Lower.DrawsNone (do return some (← job.requestCallee callee)) :=
    drawsNone_requestCallee.skip fun function => .pure fun _ => rfl
  unfold calleeOf
  dsimp only
  split
  · split
    · exact direct
    · exact .reject
  · split
    · exact direct
    · split
      · exact Lower.DrawsNone.warn.skip fun _ => .pure fun _ => rfl
      · exact .reject
  · refine .check_bind fun table _ => ?_
    split
    · exact direct
    · exact drawsNone_dispatch.skip fun name => .pure fun _ => rfl

/-- The arguments of a call get names with their positions. -/
theorem names_args {temporaries : Temporaries} {operands : List Operand} {start : Nat}
    {args : List Computed} (passed : List.Forall₂ (fun (entry : Operand × Nat) arg =>
      job.pass scope temporaries entry.1 entry.2 = .ok arg) (operands.zipIdx start) args) :
    Script.Flat (args.flatMap Computed.before) ∧
      (Script.bound (args.flatMap Computed.before)).Nodup ∧
      (∀ name ∈ Script.bound (args.flatMap Computed.before),
        ∃ position, start ≤ position ∧ name = temporaries.argument position) ∧
      ∀ stmt ∈ args.flatMap Computed.after, stmt.BindsNone := by
  induction operands generalizing start args with
  | nil =>
      cases passed
      simp
  | cons operand rest ih =>
      rw [List.zipIdx_cons] at passed
      obtain ⟨arg, others, here, behind, rfl⟩ := List.forall₂_cons_left_iff.1 passed
      obtain ⟨flat, distinct, named, none⟩ := ih behind
      have behindNames : ∀ name ∈ Script.bound (others.flatMap Computed.before),
          ∃ position, start ≤ position ∧ name = temporaries.argument position := by
        intro name member
        obtain ⟨position, after, same⟩ := named name member
        exact ⟨position, by omega, same⟩
      rcases pass_cases here with ⟨local_, -, -, rfl⟩ | ⟨-, value, -, rfl⟩
      · simp only [List.flatMap_cons, List.cons_append, List.nil_append, Script.flat_bindName,
          Script.bound_bindName, List.nodup_cons, List.forall_mem_cons]
        refine ⟨flat, ⟨fun member => ?_, distinct⟩, ⟨⟨start, Nat.le_refl _, rfl⟩, behindNames⟩,
          fun _ _ => .aliased, none⟩
        obtain ⟨position, after, same⟩ := named _ member
        have positions := Temporaries.argument_inj same
        omega
      · exact ⟨flat, distinct, behindNames, none⟩

/-- A call passes its arguments under temporaries. -/
theorem draws_call : Lower.Draws (job.call scope site source) fun before answer after =>
    ∀ computed ∈ answer, before.Prepares after computed.before ∧
      ∀ stmt ∈ computed.after, stmt.BindsNone := by
  unfold call
  refine drawsNone_calleeOf.skip fun callee => ?_
  split
  · exact .pure fun _ => by simp
  · next function =>
    refine .check_bind fun operands _ => Lower.Draws.get.bind fun progress =>
      .check_bind fun args passed => .pure ?_
    rintro after _ ⟨rfl, rfl⟩ _ ⟨⟩
    obtain ⟨flat, distinct, named, none⟩ := names_args (mapM_eq_ok_iff.1 passed)
    refine ⟨⟨flat, distinct, fun name member => ?_, rfl⟩, none⟩
    obtain ⟨position, -, rfl⟩ := named name member
    exact .inr ⟨position, rfl⟩

end Calls

/-! ## Values -/

/-- A value is computed under temporaries. -/
theorem draws_expr {value : Expr} :
    Lower.Draws (job.expr scope source value) fun before computed after =>
      before.Prepares after computed.before ∧ ∀ stmt ∈ computed.after, stmt.BindsNone := by
  have pure {value : Target.Expr} : Lower.Draws (Pure.pure (Computed.pure value) : Lower Computed)
      fun before computed after =>
        before.Prepares after computed.before ∧ ∀ stmt ∈ computed.after, stmt.BindsNone :=
    .pure fun _ => ⟨.nil, by simp [Computed.pure]⟩
  cases value with
  | use operand | unary _ operand | newArray _ operand | arrayLength | new =>
      exact .check_bind fun value _ => pure
  | binary | arrayRead => exact .check_bind fun first _ => .check_bind fun second _ => pure
  | fieldRead base field possibleTypes => exact draws_fieldValue
  | call site =>
      refine draws_call.bind fun answer => ?_
      split
      · exact .pure fun after before found => found _ rfl
      · exact .reject
  | nondet => exact pure
  | cast operand type =>
      unfold expr
      dsimp only
      split
      · exact .check_bind fun value _ => pure
      · exact .reject
  | unmodelled => exact .reject

end Job

end GotoFree
