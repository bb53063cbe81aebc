import GotoFree.Lowering.Rejection
import GotoFree.Program

/-!
# Where fields are stored

An object is a row of slots. Slot 0 holds the tag of its class; then come the fields, those of the
superclass before the class's own, so an inherited field has the same slot in every subclass.
Classes that may be met at one place of the program - they stand together in a set of possible
classes - form a family, and the rows of a family are made equally wide.
-/

namespace GotoFree

/-- A field as it is stored: the class that declares it, its name and its type. -/
structure StoredField where
  owner : String
  name : String
  type : Ty
deriving DecidableEq

/-- The slot of a field in rows of a width. -/
structure FieldSlot where
  slot : Nat
  width : Nat
deriving DecidableEq

/-- Why a field has no slot. -/
inductive SlotFault where
  | missing (className field : String)
  /-- The classes the object may have store the field differently. -/
  | disagreement (field : String) (candidates : SortedMap String FieldSlot)
deriving DecidableEq

namespace SlotFault

/-- The reason as messages show it. -/
def message : SlotFault → String
  | missing className field => "class " ++ className ++ " has no field " ++ field
  | disagreement field candidates =>
      "field " ++ field ++ " has a different representation in " ++
        ", ".intercalate (candidates.entries.map fun (className, place) =>
          className ++ " (slot " ++ toString place.slot ++ " of " ++ toString place.width ++ ")")

/-- The classes at fault. -/
def classes : SlotFault → List String
  | missing className _ => [className]
  | disagreement _ candidates => candidates.keys

end SlotFault

/-- The storage of every class that a program declares, allocates or expects somewhere. -/
structure Layout where
  /-- The fields of each class, from slot 1 on. -/
  fields : SortedMap String (List StoredField)
  superclasses : SortedMap String String
  /-- The number of slots in the rows of each class, the tag included. -/
  widths : SortedMap String Nat

/-! ## What a program says about its classes -/

/-- The non-empty sets of classes that an instruction expects at its accesses and calls. -/
def Instr.classSets (instr : Instr) : List (SortedSet String) :=
  let ofExpr : Expr → List (SortedSet String)
    | .fieldRead _ _ possibleTypes => [possibleTypes]
    | .call site => [site.possibleReceivers]
    | _ => []
  let ofPlace : Place → List (SortedSet String)
    | .field _ _ possibleTypes => [possibleTypes]
    | .var _ | .arrayElement .. => []
  let sets := match instr with
    | .assign target value => ofPlace target ++ ofExpr value
    | .call site => [site.possibleReceivers]
    | _ => []
  sets.filter fun set => !set.isEmpty

/-- The class that an instruction makes an object of. -/
def Instr.allocates? : Instr → Option String
  | .assign _ (.new className) => some className
  | _ => none

namespace Program

/-- The sets of classes that the instructions of a program expect. -/
def classSets (program : Program) : List (SortedSet String) :=
  program.instrs.flatMap Instr.classSets

/-- Every class that is declared, expected or allocated. -/
def storedClasses (program : Program) : SortedSet String :=
  .ofList (program.classes.map ClassDecl.name ++ program.classSets.flatMap SortedSet.toList ++
    program.instrs.filterMap Instr.allocates?)

/-- The superclass of each class; of several declarations of a class the last that names one
counts. -/
def superclasses (program : Program) : SortedMap String String :=
  .ofList (program.classes.filterMap fun decl =>
    decl.superclass.map fun parent => (decl.name, parent))

end Program

/-! ## Making a layout -/

namespace Layout

/-- A class and its superclasses, nearest first, or the class that is met again on the way up. A
walk that meets no class twice is at most one longer than the list of superclasses. -/
def lineage (superclasses : SortedMap String String) :
    Nat → List String → String → Except String (List String)
  | 0, _, className => throw className
  | steps + 1, met, className =>
      if className ∈ met then throw className
      else match superclasses.get? className with
        | none => return [className]
        | some parent => do
            return className :: (← lineage superclasses steps (className :: met) parent)

/-- The fields of a class, those of the topmost superclass first. -/
def fieldsOf (program : Program) (className : String) :
    Except Rejection (List StoredField) :=
  let superclasses := program.superclasses
  match lineage superclasses (superclasses.size + 2) [] className with
  | .error again => throw (.malformed ("class " ++ again ++ " inherits from itself"))
  | .ok classes =>
      let decls := classes.reverse.filterMap program.class?
      return decls.flatMap fun decl =>
        decl.fields.map fun field => ⟨decl.name, field.name, field.type⟩

/-- Adds a set of classes that belong to one family; families that it touches become one. -/
def joinFamily (families : List (SortedSet String)) (set : SortedSet String) :
    List (SortedSet String) :=
  let touched (family : SortedSet String) : Bool := family.toList.any (· ∈ set)
  (SortedSet.unionAll (families.filter touched)).union set ::
    families.filter fun family => !touched family

/-- The families of a program's classes. A class that is never expected is a family of its own and
not listed. -/
def families (program : Program) : List (SortedSet String) :=
  program.classSets.foldl joinFamily []

/-- The width that a class needs for itself. -/
def ownWidth (fields : SortedMap String (List StoredField)) (className : String) : Nat :=
  ((fields.get? className).getD []).length + 1

/-- The width of a class's rows: the largest that a class of its family needs. -/
def familyWidth (families : List (SortedSet String))
    (fields : SortedMap String (List StoredField)) (className : String) : Nat :=
  let family := (families.find? (className ∈ ·)).getD (.singleton className)
  (family.toList.map (ownWidth fields)).foldl max 0

/-- The layout of a program. -/
def ofProgram (program : Program) : Except Rejection Layout := do
  let classes := program.storedClasses.toList
  let fields : SortedMap String (List StoredField) :=
    .ofList (← classes.mapM fun className => do return (className, ← fieldsOf program className))
  let families := families program
  return {
    fields
    superclasses := program.superclasses
    widths := .ofList (classes.map fun className =>
      (className, familyWidth families fields className))
  }

/-! ## Looking up -/

/-- The tag of a class: its position among all classes, from 1 on. -/
def tag? (layout : Layout) (className : String) : Option Nat :=
  if className ∈ layout.fields.keys then some (layout.fields.keys.idxOf className + 1) else none

/-- All tags with their classes. -/
def tags (layout : Layout) : List (Nat × String) :=
  layout.fields.keys.zipIdx.map fun (className, index) => (index + 1, className)

/-- The class of a tag. -/
def classOfTag? (layout : Layout) (tag : Nat) : Option String := layout.tags.lookup tag

/-- The width of a class's rows. -/
def width? (layout : Layout) (className : String) : Option Nat := layout.widths.get? className

/-- The types of the slots after the tag; there is none where the row is only filled up. -/
def slotTypes? (layout : Layout) (className : String) : Option (List (Option Ty)) := do
  let width ← layout.width? className
  let fields ← layout.fields.get? className
  return (List.range (width - 1)).map fun index => (fields[index]?).map StoredField.type

/-- A class and its superclasses, nearest first, up to a number of them. -/
def climb (layout : Layout) : Nat → String → List String
  | 0, _ => []
  | steps + 1, className =>
      className :: match layout.superclasses.get? className with
        | some parent => climb layout steps parent
        | none => []

/-- A class and its superclasses, nearest first. No class of a layout inherits from itself, so the
walk is at most one longer than the list of superclasses. -/
def ancestors (layout : Layout) (className : String) : List String :=
  layout.climb (layout.superclasses.size + 1) className

/-- The slot, in the rows of a class, of the nearest declaration of a field from one of its
ancestors upwards. -/
def slotFrom? (layout : Layout) (className start name : String) : Option Nat := do
  let fields ← layout.fields.get? className
  let index ← (layout.ancestors start).findSome? fun owner =>
    fields.findIdx? fun field => field.owner = owner && field.name = name
  return index + 1

/-- The slot of the field that a class means by a name. -/
def slot? (layout : Layout) (className name : String) : Option Nat :=
  layout.slotFrom? className className name

/-- The slot of a field in the rows of a class. A subclass may declare the name again; an access
still means the declaration that the field's own class sees. -/
def place? (layout : Layout) (field : FieldRef) (className : String) : Option FieldSlot := do
  let start := if field.className ∈ layout.ancestors className then field.className else className
  let slot ← layout.slotFrom? className start field.name
  let width ← layout.width? className
  return ⟨slot, width⟩

/-- The slot of a field in an object that may be of several classes, which must store it alike. An
object of which nothing is known is of the field's own class. -/
def commonPlace (layout : Layout) (field : FieldRef) (possibleTypes : SortedSet String) :
    Except SlotFault FieldSlot := do
  let candidates :=
    if possibleTypes.isEmpty then [field.className] else possibleTypes.toList
  let places ← candidates.mapM fun className =>
    match layout.place? field className with
    | some place => return (className, place)
    | none => throw (.missing className field.name)
  match places with
  | (_, first) :: rest =>
      if rest.all fun entry => entry.2 = first then return first
      else throw (.disagreement field.text (.ofList places))
  | [] => throw (.disagreement field.text .empty)

end Layout

end GotoFree
