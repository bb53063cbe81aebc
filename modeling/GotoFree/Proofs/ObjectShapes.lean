import GotoFree.Proofs.FieldSlots
import GotoFree.Proofs.Records

/-!
# The shapes of objects

A new object of a class has a component for each slot in the rows of the class: the tag, the fields
of the class with the first values of their types, those of the topmost superclass first, and what
fills the row up (`IsNewObject`). Every access to a field is to a slot behind the tag, in rows as
wide as those of all classes that the object may have, so its pattern fits (`Job.shapes_agree`).
-/

namespace GotoFree

open Target (Env Eval Pattern Store Value World)

/-! ## New objects -/

/-- What stands for a slot of a new object: a cell with its content in the mutable model, the
content itself in the functional one. -/
def ObjectModel.component (model : ObjectModel) (content : Target.Expr) : Target.Expr :=
  match model with
  | .mutable => .mkRef content
  | .functional => content

/-- An object is a tuple of its tag and its fields, as the model keeps them. -/
theorem ObjectModel.allocate_eq {model : ObjectModel} {tag : Int} {fields : List Target.Expr} :
    model.allocate tag fields = .tuple ((.int tag :: fields).map model.component) := by
  cases model with
  | mutable => rfl
  | functional => exact congrArg _ (List.map_id _).symm

/-- The contents of the slots of a new object: its tag, the first values of its fields, and zeros up
to the width. -/
structure IsNewObject (tag : Nat) (fields : List StoredField) (width : Nat)
    (contents : List Target.Expr) : Prop where
  wide : contents.length = width
  tagged : contents[0]? = some (.int tag)
  initial : ∀ index field, fields[index]? = some field →
    contents[index + 1]? = some field.type.default
  padded : ∀ index, fields.length ≤ index → index + 1 < width → contents[index + 1]? = some (.int 0)

/-- The contents of a new object fill its slots, each of its type. -/
theorem isNewObject_of_slotTypes? {layout : Layout} {className : String} {tag width : Nat}
    {fields : List StoredField} {types : List (Option Ty)} (roomy : layout.Roomy)
    (stored : layout.fields.get? className = some fields)
    (wide : layout.width? className = some width)
    (areTypes : layout.slotTypes? className = some types) :
    IsNewObject tag fields width
      (.int tag :: types.map fun type => type.elim (.int 0) Ty.default) := by
  have enough := roomy className fields width stored wide
  simp only [Layout.slotTypes?, wide, stored, Option.bind_eq_bind, Option.bind_some,
    Option.pure_def, Option.some.injEq] at areTypes
  subst areTypes
  refine ⟨?_, rfl, fun index field found => ?_, fun index behind inside => ?_⟩
  · simp
    omega
  · obtain ⟨bound, -⟩ := List.getElem?_eq_some_iff.1 found
    have inside : index < width - 1 := by omega
    simp [inside, found]
  · have inside : index < width - 1 := by omega
    simp [inside, List.getElem?_eq_none behind]

/-- An allocation of a stored class makes a new object of it. -/
theorem Job.allocate_of_stored {program : Program} {job : Job}
    (made : Layout.ofProgram program = .ok job.setting.layout) {className : String}
    (isStored : className ∈ program.storedClasses) {source : Instr} :
    ∃ width tag classes contents,
      job.setting.layout.width? className = some width ∧
      job.setting.layout.tag? className = some tag ∧
      Layout.IsLineage program.superclasses className classes ∧
      job.allocate className source =
        .ok (.tuple (contents.map job.setting.model.component)) ∧
      IsNewObject tag (classes.reverse.flatMap program.fieldsBy) width contents := by
  obtain ⟨known, isWidth⟩ := Layout.of_ofProgram made className
  obtain ⟨fields, stored⟩ := known.2 isStored
  have wide := (isWidth _).2 ⟨isStored, rfl⟩
  obtain ⟨classes, isLineage, -, rfl⟩ := Layout.exists_lineage made stored
  have isKey : className ∈ job.setting.layout.fields.keys := SortedMap.mem_keys_iff.2 ⟨_, stored⟩
  obtain ⟨types, areTypes⟩ : ∃ types, job.setting.layout.slotTypes? className = some types := by
    simp [Layout.slotTypes?, wide, stored]
  have isTag : job.setting.layout.tag? className =
      some (job.setting.layout.fields.keys.idxOf className + 1) := if_pos isKey
  refine ⟨_, _, classes, _, wide, isTag, isLineage, ?_,
    isNewObject_of_slotTypes? (Layout.roomy_ofProgram made) stored wide areTypes⟩
  simp only [allocate, isTag, areTypes, pure_eq_ok, ObjectModel.allocate_eq]

/-- Nothing is made of a class that is not stored. -/
theorem Job.stored_of_allocate {program : Program} {job : Job}
    (made : Layout.ofProgram program = .ok job.setting.layout) {className : String}
    {source : Instr} {object : Target.Expr}
    (allocated : job.allocate className source = .ok object) :
    className ∈ program.storedClasses := by
  refine (Layout.of_ofProgram made className).1.1 ?_
  unfold allocate at allocated
  split at allocated
  · next isTag _ =>
    unfold Layout.tag? at isTag
    split at isTag
    · next isKey => exact SortedMap.mem_keys_iff.1 isKey
    · cases isTag
  · cases allocated

/-! ## Evaluating them -/

/-- An expression has a value whatever the state. -/
def Target.Expr.IsConstant (expr : Target.Expr) (value : Value) : Prop :=
  ∀ (call : String → List Value → Target.Eval Value) (world : World) (env : Env) (store : Store),
    expr.eval call world env store = .ok (value, store)

/-- The first value of a type is a constant. -/
theorem Ty.isConstant_default {type : Ty} : type.default.IsConstant type.initial := by
  intro call world env store
  cases type <;> rfl

/-- The contents of a new object have values. -/
theorem IsNewObject.exists_values {tag width : Nat} {fields : List StoredField}
    {contents : List Target.Expr} (isNew : IsNewObject tag fields width contents) :
    ∃ values, List.Forall₂ Target.Expr.IsConstant contents values := by
  have each : ∀ content ∈ contents, ∃ value, content.IsConstant value := by
    intro content member
    obtain ⟨slot, found⟩ := List.mem_iff_getElem?.1 member
    have inside := (List.getElem?_eq_some_iff.1 found).1
    cases slot with
    | zero =>
        cases found.symm.trans isNew.tagged
        exact ⟨.int tag, fun _ _ _ _ => rfl⟩
    | succ index =>
        by_cases isField : index < fields.length
        · cases found.symm.trans (isNew.initial index _ (List.getElem?_eq_getElem isField))
          exact ⟨_, Ty.isConstant_default⟩
        · have padding := isNew.padded index (Nat.le_of_not_lt isField) (isNew.wide ▸ inside)
          cases found.symm.trans padding
          exact ⟨.int 0, fun _ _ _ _ => rfl⟩
  clear isNew
  induction contents with
  | nil => exact ⟨[], .nil⟩
  | cons first rest ih =>
      obtain ⟨value, isValue⟩ := each first List.mem_cons_self
      obtain ⟨values, areValues⟩ := ih fun content later =>
        each content (List.mem_cons_of_mem _ later)
      exact ⟨value :: values, .cons isValue areValues⟩

section Evaluation

variable {call : String → List Value → Target.Eval Value} {world : World} {env : Env}
  {store : Store} {contents : List Target.Expr} {values : List Value}
  (constant : List.Forall₂ Target.Expr.IsConstant contents values)

include constant

/-- Constants evaluate to their values. -/
theorem evalAll_constants :
    Target.Expr.evalAll call world env contents store = .ok (values, store) := by
  induction constant with
  | nil => rfl
  | cons here _ ih =>
      rw [Target.Expr.evalAll, bind_apply, here, ok_bind, bind_apply, ih, ok_bind]
      rfl

/-- New cells are numbered from the end of the store. -/
theorem evalAll_newCells :
    Target.Expr.evalAll call world env (contents.map .mkRef) store =
      .ok ((List.range' store.cells.length values.length).map .cell,
        { store with cells := store.cells ++ values }) := by
  induction constant generalizing store with
  | nil => simp [Target.Expr.evalAll]
  | @cons first value rest others here _ ih =>
      rw [List.map_cons, Target.Expr.evalAll, Target.Expr.eval, bind_assoc, bind_apply, here,
        ok_bind, Target.Eval.newCell, bind_apply, bind_apply, get_apply, ok_bind, bind_apply,
        set_apply, ok_bind, pure_apply, ok_bind, bind_apply, ih, ok_bind, pure_apply,
        List.length_cons, List.range'_succ, List.length_append, List.append_assoc]
      rfl

/-- A row of constants becomes an object with their values. -/
theorem ObjectModel.eval_newObject {model : ObjectModel} :
    ∃ slots after, (Target.Expr.tuple (contents.map model.component)).eval call world env store =
        .ok (.tuple slots, after) ∧
      slots.length = values.length ∧
      ∀ owner < store.cells.length, model.IsObject after owner values (.tuple slots) := by
  cases model with
  | functional =>
      have same : contents.map functional.component = contents := List.map_id _
      refine ⟨values, store, ?_, rfl, fun _ _ => .functional⟩
      rw [same, Target.Expr.eval, bind_apply, evalAll_constants constant, ok_bind]
      rfl
  | mutable =>
      have same : contents.map mutable.component = contents.map .mkRef := rfl
      refine ⟨(List.range' store.cells.length values.length).map .cell,
        { store with cells := store.cells ++ values }, ?_, by simp, fun owner old => ?_⟩
      · rw [same, Target.Expr.eval, bind_apply, evalAll_newCells constant, ok_bind]
        rfl
      · refine .mutable (by simp) List.nodup_range' (fun among => ?_) ?_
        · have new := (List.mem_range'_1.1 among).1
          omega
        · intro slot address content isAddress isContent
          obtain ⟨inside, rfl⟩ := List.getElem?_eq_some_iff.1 isAddress
          rw [List.getElem_range', Nat.one_mul, List.getElem?_append_right (Nat.le_add_right _ _),
            Nat.add_sub_cancel_left, isContent]

end Evaluation

/-! ## Accesses -/

/-- The classes that the object of an access to a field may have: if nothing is known, the field's
own one. -/
def FieldRef.candidates (field : FieldRef) (possibleTypes : SortedSet String) : List String :=
  if possibleTypes.isEmpty then [field.className] else possibleTypes.toList

/-- Every access has a candidate class. -/
theorem FieldRef.exists_candidate (field : FieldRef) (possibleTypes : SortedSet String) :
    ∃ className, className ∈ field.candidates possibleTypes := by
  unfold candidates
  split
  · exact ⟨_, List.mem_singleton_self _⟩
  · next some =>
    rw [SortedSet.isEmpty_iff] at some
    push Not at some
    obtain ⟨className, member⟩ := some
    exact ⟨className, SortedSet.mem_toList.2 member⟩

/-- All classes that an object may have store the field in one place. -/
theorem Layout.place?_of_commonPlace {layout : Layout} {field : FieldRef}
    {possibleTypes : SortedSet String} {place : FieldSlot}
    (found : layout.commonPlace field possibleTypes = .ok place) :
    ∀ className ∈ field.candidates possibleTypes, layout.place? field className = some place := by
  obtain ⟨places, listed, chosen⟩ := bind_eq_ok_iff.1 found
  have alike : ∀ entry ∈ places, entry.2 = place := by
    cases places with
    | nil => cases chosen
    | cons first rest =>
        dsimp only at chosen
        split at chosen
        · next same =>
          cases chosen
          intro entry member
          rcases List.mem_cons.1 member with rfl | later
          · rfl
          · simpa using List.all_eq_true.1 same entry later
        · cases chosen
  intro className member
  obtain ⟨entry, among, isPlace⟩ := exists_of_mem_left (mapM_eq_ok_iff.1 listed) member
  split at isPlace
  · next other there =>
    cases isPlace
    exact there.trans (congrArg some (alike _ among))
  · cases isPlace

/-- The place of a field in the rows of a class is behind the tag, in rows of the width of the
class. -/
theorem Layout.width?_of_place? {layout : Layout} {field : FieldRef} {className : String}
    {place : FieldSlot} (found : layout.place? field className = some place) :
    1 ≤ place.slot ∧ layout.width? className = some place.width := by
  simp only [place?, slotFrom?, Option.bind_eq_bind, Option.bind_eq_some_iff, Option.pure_def,
    Option.some.injEq] at found
  obtain ⟨slot, ⟨fields, -, index, -, rfl⟩, width, wide, rfl⟩ := found
  exact ⟨Nat.le_add_left 1 index, wide⟩

namespace Job

variable {program : Program} {job : Job}

section Shapes

variable (made : Layout.ofProgram program = .ok job.setting.layout)
include made

/-- The patterns of an access fit every object that is newly made of one of the classes that the
object of the access may have. -/
theorem bound_allocate {field : FieldRef} {possibleTypes : SortedSet String} {place : FieldSlot}
    (found : job.setting.layout.commonPlace field possibleTypes = .ok place) {className : String}
    (candidate : className ∈ field.candidates possibleTypes) {source : Instr} :
    ∃ contents : List Target.Expr,
      job.allocate className source =
        .ok (.tuple (contents.map job.setting.model.component)) ∧
      contents.length = place.width ∧
      ∀ (call : String → List Value → Target.Eval Value) (world : World) (env : Env)
          (store : Store),
        ∃ object after,
          (Target.Expr.tuple (contents.map job.setting.model.component)).eval call world env store =
            .ok (object, after) ∧
          ∀ base cell,
            (∃ value, (Handle.pattern ⟨base, place.slot, place.width, cell⟩).bound object =
              pure [(cell, value)]) ∧
            ∃ values, (Pattern.tuple ((ObjectModel.slotNames
                ⟨base, place.slot, place.width, cell⟩).map some)).bound object = pure values := by
  have isPlace := Layout.place?_of_commonPlace found className candidate
  have wide := (Layout.width?_of_place? isPlace).2
  have isStored := (((Layout.of_ofProgram made className).2 _).1 wide).1
  obtain ⟨width, tag, classes, contents, isWidth, -, -, allocated, isNew⟩ :=
    @allocate_of_stored _ _ made _ isStored source
  cases wide.symm.trans isWidth
  obtain ⟨values, constant⟩ := isNew.exists_values
  have inside := Layout.slot_lt_of_commonPlace (Layout.roomy_ofProgram made) found
  refine ⟨contents, allocated, isNew.wide, fun call world env store => ?_⟩
  obtain ⟨slots, after, evaluated, many, -⟩ :=
    @ObjectModel.eval_newObject call world env store _ _ constant job.setting.model
  have fits : slots.length = place.width :=
    many.trans (constant.length_eq.symm.trans isNew.wide)
  exact ⟨.tuple slots, after, evaluated, fun base cell =>
    ⟨⟨_, Handle.bound_pattern fits (List.getElem?_eq_getElem (fits ▸ inside))⟩,
      _, ObjectModel.bound_slotNames fits⟩⟩

/-- Allocations and accesses agree on the shape of objects. An allocation of a class that is stored,
and of no other one, makes a row of the width of the class: its tag, the first values of its
fields, those of the topmost superclass first, and zeros. If an access to a field has a place, that
is behind the tag and inside of rows of its width, which the rows of all classes have that the
object may be of, so that its patterns fit a new object of any of them. -/
theorem shapes_agree :
    (∀ className ∈ program.storedClasses, ∀ source, ∃ width tag classes contents,
      job.setting.layout.width? className = some width ∧
      job.setting.layout.tag? className = some tag ∧
      Layout.IsLineage program.superclasses className classes ∧
      job.allocate className source =
        .ok (.tuple (contents.map job.setting.model.component)) ∧
      IsNewObject tag (classes.reverse.flatMap program.fieldsBy) width contents) ∧
    (∀ className source object, job.allocate className source = .ok object →
      className ∈ program.storedClasses) ∧
    ∀ field possibleTypes place,
      job.setting.layout.commonPlace field possibleTypes = .ok place →
        1 ≤ place.slot ∧ place.slot < place.width ∧
        ∀ className ∈ field.candidates possibleTypes, ∀ source,
          ∃ contents : List Target.Expr,
            job.allocate className source =
              .ok (.tuple (contents.map job.setting.model.component)) ∧
            contents.length = place.width ∧
            ∀ (call : String → List Value → Target.Eval Value) (world : World) (env : Env)
                (store : Store),
              ∃ object after,
                (Target.Expr.tuple (contents.map job.setting.model.component)).eval
                  call world env store = .ok (object, after) ∧
                ∀ base cell,
                  (∃ value, (Handle.pattern ⟨base, place.slot, place.width, cell⟩).bound object =
                    pure [(cell, value)]) ∧
                  ∃ values, (Pattern.tuple ((ObjectModel.slotNames
                    ⟨base, place.slot, place.width, cell⟩).map some)).bound object =
                      pure values := by
  refine ⟨fun className isStored source => allocate_of_stored made isStored,
    fun className source object => stored_of_allocate made,
    fun field possibleTypes place found => ?_⟩
  have behind : 1 ≤ place.slot := by
    obtain ⟨className, candidate⟩ := field.exists_candidate possibleTypes
    exact (Layout.width?_of_place? (Layout.place?_of_commonPlace found className candidate)).1
  exact ⟨behind, Layout.slot_lt_of_commonPlace (Layout.roomy_ofProgram made) found,
    fun className candidate source => bound_allocate made found candidate⟩

end Shapes

/-- An access to either of two classes finds the shape of both. -/
theorem shapes_agree_readEither : ∃ layout,
    Layout.ofProgram (Layout.accessingProgram (.assign (.var "b") Layout.readEither)) =
      .ok layout ∧
    layout.commonPlace ⟨"A", "f"⟩ (.ofList ["A", "B"]) = .ok ⟨1, 3⟩ ∧
    ∀ id method function plan flags source,
      let job : Job := ⟨⟨Layout.accessingProgram (.assign (.var "b") Layout.readEither), layout,
        .mutable⟩, id, method, function, plan, flags⟩
      (∃ contents, job.allocate "B" source =
          .ok (.tuple (contents.map ObjectModel.mutable.component)) ∧
        IsNewObject 2 [⟨"A", "f", .bool⟩, ⟨"B", "g", .int⟩] 3 contents) ∧
      ∃ contents : List Target.Expr, job.allocate "A" source =
          .ok (.tuple (contents.map ObjectModel.mutable.component)) ∧
        contents.length = 3 := by
  have computed : (Layout.ofProgram
      (Layout.accessingProgram (.assign (.var "b") Layout.readEither))).toOption.map
        (fun layout => ((layout.commonPlace ⟨"A", "f"⟩ (.ofList ["A", "B"])).toOption,
          layout.width? "B", layout.tag? "B")) = some (some ⟨1, 3⟩, some 3, some 2) := by
    decide
  have isLineage : Layout.IsLineage
      (Layout.accessingProgram (.assign (.var "b") Layout.readEither)).superclasses
        "B" ["B", "A"] := by
    refine .under ?_ (.top ?_) <;> decide
  have fields : ["A", "B"].flatMap
      (Layout.accessingProgram (.assign (.var "b") Layout.readEither)).fieldsBy =
        [⟨"A", "f", .bool⟩, ⟨"B", "g", .int⟩] := by
    decide
  have isStored : "B" ∈ (Layout.accessingProgram
      (.assign (.var "b") Layout.readEither)).storedClasses := by
    decide
  have candidate : "A" ∈ FieldRef.candidates ⟨"A", "f"⟩ (.ofList ["A", "B"]) := by
    decide
  cases made : Layout.ofProgram
      (Layout.accessingProgram (.assign (.var "b") Layout.readEither)) with
  | error => simp [made, Except.toOption] at computed
  | ok layout =>
      simp only [made, Except.toOption, Option.map_some, Option.some.injEq,
        Prod.mk.injEq] at computed
      obtain ⟨isPlace, isWidth, isTag⟩ := computed
      have found : layout.commonPlace ⟨"A", "f"⟩ (.ofList ["A", "B"]) = .ok ⟨1, 3⟩ := by
        cases answer : layout.commonPlace ⟨"A", "f"⟩ (.ofList ["A", "B"]) with
        | error => simp [answer] at isPlace
        | ok place => simpa [answer] using isPlace
      refine ⟨layout, rfl, found, fun id method function plan flags source => ?_⟩
      intro job
      have agree := @shapes_agree _ job made
      obtain ⟨width, tag, classes, contents, wide, tagged, above, allocated, isNew⟩ :=
        agree.1 "B" isStored source
      obtain ⟨others, made, long, -⟩ := (agree.2.2 _ _ _ found).2.2 "A" candidate source
      cases isWidth.symm.trans wide
      cases isTag.symm.trans tagged
      cases isLineage.unique above
      exact ⟨⟨contents, allocated, fields ▸ isNew⟩, others, made, long⟩

end Job

end GotoFree
