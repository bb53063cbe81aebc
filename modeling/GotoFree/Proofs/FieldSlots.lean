import Mathlib.Logic.Relation
import GotoFree.Proofs.Families

/-!
# Inherited fields

The rows of a class begin with the rows of its superclass. So a field keeps its slot in every
subclass, and an access through a class finds the nearest declaration on the way up from it, in
whatever subclass the object is (`Layout.commonPlace_inherited`).
-/

namespace GotoFree

open Relation

/-! ## Classes and their superclasses -/

namespace Program

variable {program : Program} {name className parent : String} {decl : ClassDecl}

/-- A class names another one as its superclass. -/
def Extends (program : Program) (child parent : String) : Prop :=
  ∃ decl ∈ program.classes, decl.name = child ∧ decl.superclass = some parent

/-- A class is another one or a subclass of it, at any depth. -/
def Inherits (program : Program) : String → String → Prop := ReflTransGen program.Extends

/-- A class declares a field of a name itself. -/
def Declares (program : Program) (owner name : String) : Prop :=
  ∃ decl ∈ program.classes, decl.name = owner ∧ ∃ field ∈ decl.fields, field.name = name

/-- A class declares or inherits a field of a name. -/
def Has (program : Program) (className name : String) : Prop :=
  ∃ owner, program.Inherits className owner ∧ program.Declares owner name

/-- What a class means by the name of a field: the nearest declaration on the way up. -/
inductive Sees (program : Program) (name : String) : String → String → Prop where
  | own {className : String} (declares : program.Declares className name) :
      Sees program name className className
  | inherited {className parent owner : String} (silent : ¬ program.Declares className name)
      (up : program.Extends className parent) (sees : Sees program name parent owner) :
      Sees program name className owner

/-- A field is seen in a class that inherits its owner. -/
theorem Sees.inherits {owner : String} (sees : program.Sees name className owner) :
    program.Inherits className owner := by
  induction sees with
  | own => exact .refl
  | inherited _ up _ ih => exact .head up ih

/-- A field is seen where its owner declares it. -/
theorem Sees.declares {owner : String} (sees : program.Sees name className owner) :
    program.Declares owner name := by
  induction sees with
  | own declares => exact declares
  | inherited _ _ _ ih => exact ih

/-- A class that has a field of a name means one by it. -/
theorem Has.exists_sees (has : program.Has className name) :
    ∃ owner, program.Sees name className owner := by
  obtain ⟨owner, path, declares⟩ := has
  induction path using ReflTransGen.head_induction_on with
  | refl => exact ⟨owner, .own declares⟩
  | @head child parent up _ ih =>
      by_cases here : program.Declares child name
      · exact ⟨child, .own here⟩
      · obtain ⟨nearest, sees⟩ := ih
        exact ⟨nearest, .inherited here up sees⟩

section Distinct

variable (distinct : (program.classes.map ClassDecl.name).Nodup)
include distinct

/-- A class is found under its name. -/
theorem class?_eq_some_iff :
    program.class? name = some decl ↔ decl ∈ program.classes ∧ decl.name = name := by
  constructor
  · intro found
    exact ⟨List.mem_of_find?_eq_some found, by simpa using List.find?_some found⟩
  · rintro ⟨member, rfl⟩
    cases found : program.class? decl.name with
    | none => simpa using List.find?_eq_none.1 found decl member
    | some other =>
        have same : other.name = decl.name := by simpa using List.find?_some found
        rw [List.inj_on_of_nodup_map distinct (List.mem_of_find?_eq_some found) member same]

/-- The parent of a class is the one it extends. -/
theorem get?_superclasses :
    program.superclasses.get? className = some parent ↔ program.Extends className parent := by
  have keys : (program.classes.filterMap fun decl =>
      decl.superclass.map fun parent => (decl.name, parent)).map Prod.fst |>.Sublist
        (program.classes.map ClassDecl.name) := by
    clear distinct
    induction program.classes with
    | nil => exact .slnil
    | cons decl rest ih =>
        cases above : decl.superclass with
        | none => simpa [above] using ih.cons decl.name
        | some parent => simpa [above] using ih.cons_cons decl.name
  refine (SortedMap.get?_ofList (keys.nodup distinct)).trans ?_
  simp only [List.mem_filterMap, Option.map_eq_some_iff, Prod.mk.injEq, Extends]
  constructor
  · rintro ⟨decl, member, above, isParent, rfl, rfl⟩
    exact ⟨decl, member, rfl, isParent⟩
  · rintro ⟨decl, member, rfl, isParent⟩
    exact ⟨decl, member, parent, isParent, rfl, rfl⟩

end Distinct

/-- The fields that a class declares itself, as they are stored. -/
def fieldsBy (program : Program) (className : String) : List StoredField :=
  ((program.class? className).map fun decl =>
    decl.fields.map fun field => ⟨decl.name, field.name, field.type⟩).getD []

/-- The fields that a class adds are its own. -/
theorem owner_of_mem_fieldsBy {field : StoredField} (member : field ∈ program.fieldsBy className) :
    field.owner = className ∧ program.Declares className field.name := by
  unfold fieldsBy at member
  cases found : program.class? className with
  | none => simp [found] at member
  | some decl =>
      have named : decl.name = className := by simpa using List.find?_some found
      simp only [found, Option.map_some, Option.getD_some, List.mem_map] at member
      obtain ⟨declared, among, rfl⟩ := member
      exact ⟨named, decl, List.mem_of_find?_eq_some found, named, declared, among, rfl⟩

/-- A declared field is stored by its class. -/
theorem Declares.exists_stored (distinct : (program.classes.map ClassDecl.name).Nodup)
    (declares : program.Declares className name) :
    ∃ type, ⟨className, name, type⟩ ∈ program.fieldsBy className := by
  obtain ⟨decl, member, rfl, field, among, rfl⟩ := declares
  have found := (class?_eq_some_iff distinct).2 ⟨member, rfl⟩
  refine ⟨field.type, ?_⟩
  simp only [fieldsBy, found, Option.map_some, Option.getD_some]
  exact List.mem_map.2 ⟨field, among, rfl⟩

end Program

/-! ## The way up -/

namespace Layout

variable {superclasses : SortedMap String String} {className : String} {classes : List String}

/-- A class and its superclasses, nearest first, up to one without a superclass. -/
inductive IsLineage (superclasses : SortedMap String String) : String → List String → Prop where
  | top {className : String} (none : superclasses.get? className = none) :
      IsLineage superclasses className [className]
  | under {className parent : String} {classes : List String}
      (up : superclasses.get? className = some parent)
      (above : IsLineage superclasses parent classes) :
      IsLineage superclasses className (className :: classes)

namespace IsLineage

/-- A class has one lineage only. -/
theorem unique {others : List String} (one : IsLineage superclasses className classes)
    (two : IsLineage superclasses className others) : classes = others := by
  induction one generalizing others with
  | top none =>
      cases two with
      | top => rfl
      | under up => cases none.symm.trans up
  | under up _ ih =>
      cases two with
      | top none => cases none.symm.trans up
      | under again above =>
          cases up.symm.trans again
          rw [ih above]

/-- The way up from a superclass is the end of the way up from the class. -/
theorem exists_suffix (isLineage : IsLineage superclasses className classes) {other : String}
    (member : other ∈ classes) :
    ∃ front back, classes = front ++ back ∧ IsLineage superclasses other back := by
  induction isLineage with
  | top none =>
      obtain rfl := List.mem_singleton.1 member
      exact ⟨[], _, rfl, .top none⟩
  | @under child parent classes up above ih =>
      rcases List.mem_cons.1 member with rfl | later
      · exact ⟨[], _, rfl, .under up above⟩
      · obtain ⟨front, back, rfl, rest⟩ := ih later
        exact ⟨child :: front, back, rfl, rest⟩

/-- A class stands in its own lineage. -/
theorem self_mem (isLineage : IsLineage superclasses className classes) : className ∈ classes := by
  cases isLineage <;> exact List.mem_cons_self

/-- All but the last have a superclass, so a walk that meets no class twice is short. -/
theorem length_le (isLineage : IsLineage superclasses className classes)
    (distinct : classes.Nodup) : classes.length ≤ superclasses.size + 1 := by
  have known : classes.dropLast ⊆ superclasses.keys := by
    clear distinct
    induction isLineage with
    | top => simp
    | under up above ih =>
        rw [List.dropLast_cons_of_ne_nil (List.ne_nil_of_mem above.self_mem)]
        exact List.cons_subset.2 ⟨SortedMap.mem_keys_iff.2 ⟨_, up⟩, ih⟩
  have few := ((distinct.sublist (List.dropLast_sublist classes)).subperm known).length_le
  rw [List.length_dropLast, SortedMap.keys, List.length_map] at few
  unfold SortedMap.size
  omega

/-- The climb from a class lists its lineage. -/
theorem climb_eq {layout : Layout} (isLineage : IsLineage layout.superclasses className classes)
    {steps : Nat} (enough : classes.length ≤ steps) : layout.climb steps className = classes := by
  induction isLineage generalizing steps with
  | top none =>
      cases steps with
      | zero => simp at enough
      | succ steps => simp [climb, none]
  | under up _ ih =>
      cases steps with
      | zero => simp at enough
      | succ steps => simp [climb, up, ih (Nat.le_of_succ_le_succ enough)]

end IsLineage

/-- A walk up that is answered meets no class twice. -/
theorem isLineage_of_lineage {steps : Nat} {met : List String}
    (walked : lineage superclasses steps met className = .ok classes) :
    IsLineage superclasses className classes ∧ classes.Nodup ∧ ∀ other ∈ classes, other ∉ met := by
  induction steps generalizing met className classes with
  | zero => cases walked
  | succ steps ih =>
      unfold lineage at walked
      split at walked
      · cases walked
      · next fresh =>
        split at walked
        · next none =>
          cases walked
          exact ⟨.top none, by simp, by simpa using fresh⟩
        · next parent up =>
          obtain ⟨above, there, same⟩ := bind_eq_ok_iff.1 walked
          cases same
          obtain ⟨isLineage, distinct, apart⟩ := ih there
          refine ⟨.under up isLineage, List.nodup_cons.2 ⟨fun again => ?_, distinct⟩, ?_⟩
          · exact apart className again List.mem_cons_self
          · rintro other member
            rcases List.mem_cons.1 member with rfl | later
            · exact fresh
            · exact fun earlier => apart other later (List.mem_cons_of_mem _ earlier)

/-- The fields of a class are those that its superclasses and itself declare, the topmost class
first. -/
theorem fieldsOf_eq_ok {program : Program} {fields : List StoredField}
    (made : fieldsOf program className = .ok fields) :
    ∃ classes, IsLineage program.superclasses className classes ∧ classes.Nodup ∧
      fields = classes.reverse.flatMap program.fieldsBy := by
  unfold fieldsOf at made
  dsimp only at made
  split at made
  · cases made
  · next classes walked =>
    cases made
    obtain ⟨isLineage, distinct, -⟩ := isLineage_of_lineage walked
    refine ⟨classes, isLineage, distinct, ?_⟩
    induction classes.reverse with
    | nil => rfl
    | cons first rest ih =>
        cases found : program.class? first with
        | none => simpa [found, Program.fieldsBy] using ih
        | some decl => simpa [found, Program.fieldsBy] using ih

/-! ## Fields and slots -/

section Program

variable {program : Program} {layout : Layout} {name other : String} {fields : List StoredField}
  (distinct : (program.classes.map ClassDecl.name).Nodup) (made : ofProgram program = .ok layout)

include made

/-- The fields that are stored of a class are those collected for it. -/
theorem fieldsOf_of_get? (stored : layout.fields.get? className = some fields) :
    fieldsOf program className = .ok fields := by
  obtain ⟨listed, steps, made⟩ := bind_eq_ok_iff.1 made
  cases made
  have related := mapM_eq_ok_iff.1 steps
  have member : (className, fields) ∈ listed := by
    unfold SortedMap.ofList at stored
    rw [SortedMap.get?_foldl_insert, SortedMap.get?_empty, Option.or_none] at stored
    obtain ⟨entry, found, rfl⟩ := Option.map_eq_some_iff.1 stored
    have same : entry.1 = className := by simpa using List.find?_some found
    exact same ▸ List.mem_reverse.1 (List.mem_of_find?_eq_some found)
  obtain ⟨owner, -, here⟩ := exists_of_mem_right related member
  obtain ⟨found, isFound, same⟩ := bind_eq_ok_iff.1 here
  cases same
  exact isFound

/-- The layout has the parents of the program. -/
theorem superclasses_ofProgram : layout.superclasses = program.superclasses := by
  obtain ⟨listed, steps, made⟩ := bind_eq_ok_iff.1 made
  cases made
  rfl

/-- Every declared class has fields and a width. -/
theorem exists_stored_of_declared (declared : className ∈ program.classes.map ClassDecl.name) :
    ∃ fields width, layout.fields.get? className = some fields ∧
      layout.width? className = some width := by
  have stored : className ∈ program.storedClasses := by
    simp [Program.storedClasses, declared]
  obtain ⟨known, wide⟩ := of_ofProgram made className
  obtain ⟨fields, found⟩ := known.2 stored
  exact ⟨fields, _, found, (wide _).2 ⟨stored, rfl⟩⟩

/-- Every class that is stored has a lineage, and its fields are collected along it. -/
theorem exists_lineage (stored : layout.fields.get? className = some fields) :
    ∃ classes, IsLineage program.superclasses className classes ∧
      layout.ancestors className = classes ∧ fields = classes.reverse.flatMap program.fieldsBy := by
  obtain ⟨classes, isLineage, distinct, same⟩ := fieldsOf_eq_ok (fieldsOf_of_get? made stored)
  have known := superclasses_ofProgram made
  refine ⟨classes, isLineage, ?_, same⟩
  rw [← known] at isLineage
  exact isLineage.climb_eq (isLineage.length_le distinct)

end Program

section Inherited

variable {program : Program} {layout : Layout} {sub owner name : String}
  {fields subFields : List StoredField} (distinct : (program.classes.map ClassDecl.name).Nodup)
include distinct

/-- A class inherits those of its lineage, and no others. -/
theorem IsLineage.inherits_iff (isLineage : IsLineage program.superclasses className classes)
    {other : String} : program.Inherits className other ↔ other ∈ classes := by
  constructor
  · intro path
    induction path using ReflTransGen.head_induction_on generalizing classes with
    | refl => exact isLineage.self_mem
    | head up _ ih =>
        have isParent := (Program.get?_superclasses distinct).2 up
        cases isLineage with
        | top none => cases none.symm.trans isParent
        | under again above =>
            cases again.symm.trans isParent
            exact List.mem_cons_of_mem _ (ih above)
  · intro member
    induction isLineage with
    | top => exact List.mem_singleton.1 member ▸ .refl
    | under up _ ih =>
        rcases List.mem_cons.1 member with rfl | later
        · exact .refl
        · exact .head ((Program.get?_superclasses distinct).1 up) (ih later)

variable (made : ofProgram program = .ok layout)
include made

/-- The rows of a class begin like those of each of its superclasses. -/
theorem exists_append_of_inherits (stored : layout.fields.get? className = some fields)
    (storedSub : layout.fields.get? sub = some subFields)
    (inherits : program.Inherits sub className) : ∃ more, subFields = fields ++ more := by
  obtain ⟨classes, isLineage, -, rfl⟩ := exists_lineage made stored
  obtain ⟨subClasses, isSub, -, rfl⟩ := exists_lineage made storedSub
  obtain ⟨front, back, rfl, isBack⟩ :=
    isSub.exists_suffix ((isSub.inherits_iff distinct).1 inherits)
  obtain rfl := isBack.unique isLineage
  exact ⟨_, by rw [List.reverse_append, List.flatMap_append]⟩

omit distinct in
/-- A row holds no field of a name and a class that does not declare the name. -/
theorem findIdx?_eq_none (stored : layout.fields.get? sub = some subFields)
    (silent : ¬ program.Declares owner name) :
    subFields.findIdx? (fun field => field.owner = owner && field.name = name) = none := by
  obtain ⟨classes, -, -, rfl⟩ := exists_lineage made stored
  rw [List.findIdx?_eq_none_iff]
  intro field member
  obtain ⟨declaring, -, among⟩ := List.mem_flatMap.1 member
  obtain ⟨rfl, declares⟩ := Program.owner_of_mem_fieldsBy among
  have differ : ¬ (field.owner = owner ∧ field.name = name) := by
    rintro ⟨rfl, rfl⟩
    exact silent declares
  simpa using differ

/-- A row holds what the superclasses of its class declare. -/
theorem exists_findIdx? (stored : layout.fields.get? className = some fields)
    (inherits : program.Inherits className owner) (declares : program.Declares owner name) :
    ∃ index, fields.findIdx? (fun field => field.owner = owner && field.name = name) =
      some index := by
  obtain ⟨classes, isLineage, -, rfl⟩ := exists_lineage made stored
  obtain ⟨type, here⟩ := declares.exists_stored distinct
  rw [← Option.isSome_iff_exists, List.findIdx?_isSome, List.any_eq_true]
  refine ⟨_, List.mem_flatMap.2 ⟨owner, ?_, here⟩, by simp⟩
  exact List.mem_reverse.2 ((isLineage.inherits_iff distinct).1 inherits)

/-- In the rows of a subclass a class finds the field that it means in its own rows. -/
theorem slotFrom?_of_sees (stored : layout.fields.get? className = some fields)
    (storedSub : layout.fields.get? sub = some subFields)
    (inherits : program.Inherits sub className) (sees : program.Sees name className owner)
    {index : Nat} (found : fields.findIdx? (fun field =>
      field.owner = owner && field.name = name) = some index) :
    layout.slotFrom? sub className name = some (index + 1) := by
  obtain ⟨more, rfl⟩ := exists_append_of_inherits distinct made stored storedSub inherits
  obtain ⟨classes, isLineage, walk, -⟩ := exists_lineage made stored
  have here : (fields ++ more).findIdx? (fun field =>
      field.owner = owner && field.name = name) = some index := by
    rw [List.findIdx?_append, found, Option.some_or]
  have search : classes.findSome? (fun owner => (fields ++ more).findIdx? fun field =>
      field.owner = owner && field.name = name) = some index := by
    clear walk stored inherits found
    induction sees generalizing classes with
    | own =>
        cases isLineage <;> simp only [List.findSome?_cons, here]
    | inherited silent up _ ih =>
        have isParent := (Program.get?_superclasses distinct).2 up
        cases isLineage with
        | top none => cases none.symm.trans isParent
        | under again above =>
            cases again.symm.trans isParent
            rw [List.findSome?_cons, findIdx?_eq_none made storedSub silent]
            exact ih _ above here
  simp only [slotFrom?, storedSub, walk, search, Option.bind_eq_bind, Option.bind_some,
    Option.pure_def]

/-- The place of a field that a class means, in the rows of one of its subclasses. -/
theorem place?_of_sees (stored : layout.fields.get? className = some fields)
    (storedSub : layout.fields.get? sub = some subFields)
    (inherits : program.Inherits sub className) (sees : program.Sees name className owner)
    {index width : Nat} (found : fields.findIdx? (fun field =>
      field.owner = owner && field.name = name) = some index)
    (wide : layout.width? sub = some width) :
    layout.place? ⟨className, name⟩ sub = some ⟨index + 1, width⟩ := by
  obtain ⟨subClasses, isSub, walk, -⟩ := exists_lineage made storedSub
  have above : className ∈ layout.ancestors sub :=
    walk ▸ (isSub.inherits_iff distinct).1 inherits
  have slot := slotFrom?_of_sees distinct made stored storedSub inherits sees found
  simp only [place?, if_pos above, slot, wide, Option.bind_eq_bind, Option.bind_some,
    Option.pure_def]

omit distinct made in
/-- A field has one place in objects whose classes all have it there. -/
theorem commonPlace_of_forall {field : FieldRef} {classes : SortedSet String} {place : FieldSlot}
    (inhabited : ∃ sub, sub ∈ classes)
    (alike : ∀ sub ∈ classes, layout.place? field sub = some place) :
    layout.commonPlace field classes = .ok place := by
  have nonempty : classes.isEmpty = false := by
    rw [← Bool.not_eq_true, SortedSet.isEmpty_iff]
    obtain ⟨sub, member⟩ := inhabited
    exact fun none => none sub member
  simp only [commonPlace, nonempty, Bool.false_eq_true, if_false]
  refine bind_eq_ok_iff.2 ⟨classes.toList.map fun sub => (sub, place), ?_, ?_⟩
  · rw [mapM_eq_ok_iff, List.forall₂_map_right_iff, List.forall₂_same]
    intro sub member
    simp only [alike sub member, pure_eq_ok]
  · cases listed : classes.toList with
    | nil =>
        obtain ⟨sub, member⟩ := inhabited
        cases listed ▸ SortedSet.mem_toList.2 member
    | cons first rest => simp

/-- The rows of a class are the beginning of the rows of each subclass. So for each field that the
class has, an access through the class to an object of the class or its subclasses, with rows of one
width, finds the slot that the class itself has for the nearest declaration on the way up. -/
theorem commonPlace_inherited (declared : className ∈ program.classes.map ClassDecl.name) :
    ∃ fields, layout.fields.get? className = some fields ∧
      (∀ sub, program.Inherits sub className →
        ∃ more, layout.fields.get? sub = some (fields ++ more)) ∧
      ∀ name, program.Has className name → ∃ owner index type,
        program.Sees name className owner ∧ fields[index]? = some ⟨owner, name, type⟩ ∧
          layout.slot? className name = some (index + 1) ∧
          ∀ classes : SortedSet String, (∃ sub, sub ∈ classes) →
            (∀ sub ∈ classes, program.Inherits sub className) →
            (∀ one ∈ classes, ∀ other ∈ classes, layout.width? one = layout.width? other) →
            ∃ width, (∀ sub ∈ classes, layout.width? sub = some width) ∧
              layout.commonPlace ⟨className, name⟩ classes = .ok ⟨index + 1, width⟩ := by
  have storedBelow {sub : String} (inherits : program.Inherits sub className) :
      ∃ fields width, layout.fields.get? sub = some fields ∧ layout.width? sub = some width := by
    refine exists_stored_of_declared made ?_
    rcases ReflTransGen.cases_head inherits with rfl | ⟨_, ⟨decl, member, named, -⟩, -⟩
    · exact declared
    · exact List.mem_map.2 ⟨decl, member, named⟩
  obtain ⟨fields, _, stored, -⟩ := storedBelow .refl
  refine ⟨fields, stored, fun sub inherits => ?_, fun name has => ?_⟩
  · obtain ⟨subFields, _, storedSub, -⟩ := storedBelow inherits
    obtain ⟨more, rfl⟩ := exists_append_of_inherits distinct made stored storedSub inherits
    exact ⟨more, storedSub⟩
  · obtain ⟨owner, sees⟩ := has.exists_sees
    obtain ⟨index, found⟩ :=
      exists_findIdx? distinct made stored sees.inherits sees.declares
    obtain ⟨bound, isField, -⟩ := List.findIdx?_eq_some_iff_getElem.1 found
    have named : fields[index] = ⟨owner, name, fields[index].type⟩ := by
      simp only [Bool.and_eq_true, decide_eq_true_eq] at isField
      obtain ⟨rfl, rfl⟩ := isField
      rfl
    refine ⟨owner, index, fields[index].type, sees,
      (List.getElem?_eq_getElem bound).trans (congrArg some named),
      slotFrom?_of_sees distinct made stored stored .refl sees found,
      fun classes inhabited below alike => ?_⟩
    obtain ⟨one, member⟩ := inhabited
    obtain ⟨_, width, -, wide⟩ := storedBelow (below one member)
    have widths : ∀ sub ∈ classes, layout.width? sub = some width :=
      fun sub here => (alike sub here one member).trans wide
    refine ⟨width, widths, commonPlace_of_forall ⟨one, member⟩ fun sub here => ?_⟩
    obtain ⟨subFields, _, storedSub, -⟩ := storedBelow (below sub here)
    exact place?_of_sees distinct made stored storedSub (below sub here) sees found
      (widths sub here)

end Inherited

/-- A program with a class below an undeclared one and two subclasses that declare its field again,
listed before it. A method reads the field of an object of any of the three. -/
def shadowingProgram : Program :=
  { accessingProgram (.assign (.var "b")
      (.fieldRead "o" ⟨"A", "f"⟩ (.ofList ["A", "B", "C"]))) with
    classes := [⟨"C", some "B", [⟨"f", .int⟩]⟩, ⟨"B", some "A", [⟨"f", .int⟩]⟩,
      ⟨"A", some "Object", [⟨"g", .int⟩, ⟨"f", .bool⟩]⟩] }

/-- A field that hides another one is found in a slot of its own. -/
theorem commonPlace_inherited_shadowing : ∃ layout, ofProgram shadowingProgram = .ok layout ∧
    layout.commonPlace ⟨"A", "f"⟩ (.ofList ["A", "B", "C"]) = .ok ⟨2, 5⟩ := by
  have computed : (ofProgram shadowingProgram).toOption.map (fun layout =>
      (layout.slot? "A" "f", ["A", "B", "C"].map layout.width?)) =
        some (some 2, [some 5, some 5, some 5]) := by
    decide
  have distinct : (shadowingProgram.classes.map ClassDecl.name).Nodup := by decide
  have declared : "A" ∈ shadowingProgram.classes.map ClassDecl.name := by decide
  have middle : shadowingProgram.Extends "B" "A" :=
    ⟨⟨"B", some "A", [⟨"f", .int⟩]⟩, by decide⟩
  have bottom : shadowingProgram.Extends "C" "B" :=
    ⟨⟨"C", some "B", [⟨"f", .int⟩]⟩, by decide⟩
  have has : shadowingProgram.Has "A" "f" := ⟨"A", .refl,
    ⟨"A", some "Object", [⟨"g", .int⟩, ⟨"f", .bool⟩]⟩, by decide, rfl, ⟨"f", .bool⟩,
    by decide⟩
  have mem_iff {sub : String} : sub ∈ SortedSet.ofList ["A", "B", "C"] ↔
      sub = "A" ∨ sub = "B" ∨ sub = "C" := by
    simp
  cases made : ofProgram shadowingProgram with
  | error => simp [made, Except.toOption] at computed
  | ok layout =>
      simp only [made, Except.toOption, Option.map_some, Option.some.injEq, Prod.mk.injEq,
        List.map_cons, List.map_nil, List.cons.injEq, and_true] at computed
      obtain ⟨slot, wideA, wideB, wideC⟩ := computed
      have widths : ∀ sub ∈ SortedSet.ofList ["A", "B", "C"], layout.width? sub = some 5 := by
        intro sub member
        rcases mem_iff.1 member with rfl | rfl | rfl
        · exact wideA
        · exact wideB
        · exact wideC
      obtain ⟨_, -, -, places⟩ := commonPlace_inherited distinct made declared
      obtain ⟨_, index, _, -, -, isSlot, accesses⟩ := places "f" has
      cases slot.symm.trans isSlot
      obtain ⟨width, wide, found⟩ := accesses (.ofList ["A", "B", "C"]) ⟨"A", mem_iff.2 (by simp)⟩
        (fun sub member => by
          rcases mem_iff.1 member with rfl | rfl | rfl
          · exact .refl
          · exact .single middle
          · exact .head bottom (.single middle))
        fun one here other there => (widths one here).trans (widths other there).symm
      cases (widths "A" (mem_iff.2 (by simp))).symm.trans (wide "A" (mem_iff.2 (by simp)))
      exact ⟨layout, rfl, found⟩

end Layout

end GotoFree
