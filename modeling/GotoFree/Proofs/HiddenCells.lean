import GotoFree.Proofs.Evaluation

/-!
# Hidden cells

No step of a run makes up the address of a cell: it is taken from a value that holds it, or the cell
is new. So a cell that no value in the store holds stays out of reach, and keeps its content, as
long as the steps of the run are given no value that holds it (`Eval.Discreet`).
-/

namespace GotoFree.Target

/-! ## The cells in a value -/

mutual

/-- The addresses of the cells in a value. -/
def Value.cells : Value → List Nat
  | .cell address => [address]
  | .tuple components => cellsOfAll components
  | .int _ | .bool _ | .null | .unit | .array _ => []

/-- The addresses of the cells in some values. -/
def Value.cellsOfAll : List Value → List Nat
  | [] => []
  | value :: rest => value.cells ++ cellsOfAll rest

end

/-- The cells in some values are those in each of them. -/
theorem Value.mem_cellsOfAll_iff {values : List Value} {address : Nat} :
    address ∈ cellsOfAll values ↔ ∃ value ∈ values, address ∈ value.cells := by
  induction values with
  | nil => simp [cellsOfAll]
  | cons first rest ih => simp [cellsOfAll, ih]

/-- The operators and the nondeterministic values make up no cells: the cells in what an operator
answers are those of its operands. -/
structure World.Honest (world : World) : Prop where
  binary : ∀ (op : BinOp) left right result,
    op.meaning world.operators left right = some result → result.cells ⊆ left.cells ++ right.cells
  unary : ∀ (op : UnOp) operand result,
    op.meaning world.operators operand = some result → result.cells ⊆ operand.cells
  stream : ∀ index, (world.stream index).cells = []
  blank : world.blank.cells = []

/-- The cells in a value are among the first ones of a store, and none of them is hidden. -/
def Value.Public (hidden : List Nat) (count : Nat) (value : Value) : Prop :=
  ∀ address ∈ value.cells, address < count ∧ address ∉ hidden

namespace Value.Public

variable {hidden more : List Nat} {count later : Nat} {value : Value}

/-- A value without cells is public. -/
theorem of_none (none : value.cells = []) : value.Public hidden count := by
  intro address member
  rw [none] at member
  cases member

/-- What is public stays so when there are more cells. -/
theorem mono (isPublic : value.Public hidden count) (grown : count ≤ later) :
    value.Public hidden later :=
  fun address member =>
    ⟨Nat.lt_of_lt_of_le (isPublic address member).1 grown, (isPublic address member).2⟩

/-- What is public for many hidden cells is public for some of them. -/
theorem fewer (isPublic : value.Public more count) (among : hidden ⊆ more) :
    value.Public hidden count :=
  fun address member => ⟨(isPublic address member).1, fun isHidden =>
    (isPublic address member).2 (among isHidden)⟩

/-- A cell that was not made before is in no value. -/
theorem hide (isPublic : value.Public hidden count) : value.Public (count :: hidden) count := by
  intro address member
  obtain ⟨known, shown⟩ := isPublic address member
  exact ⟨known, List.not_mem_cons_of_ne_of_not_mem (Nat.ne_of_lt known) shown⟩

/-- A value with cells among public ones is public. -/
theorem of_subset {cells : List Nat} (among : value.cells ⊆ cells)
    (each : ∀ address ∈ cells, address < count ∧ address ∉ hidden) : value.Public hidden count :=
  fun address member => each address (among member)

/-- A tuple is public if its components are. -/
theorem tuple_iff {components : List Value} : (Value.tuple components).Public hidden count ↔
    ∀ component ∈ components, component.Public hidden count := by
  constructor
  · intro isPublic component member address inside
    exact isPublic address (mem_cellsOfAll_iff.2 ⟨component, member, inside⟩)
  · intro each address inside
    obtain ⟨component, member, inside⟩ := mem_cellsOfAll_iff.1 inside
    exact each component member address inside

/-- A reference is public if its cell is there and not hidden. -/
theorem cell_iff {address : Nat} : (Value.cell address).Public hidden count ↔
    address < count ∧ address ∉ hidden :=
  List.forall_mem_singleton

end Value.Public

/-- No value in a store holds a hidden cell, or one that has not been made; and all hidden cells
have one content. -/
structure Store.Hides (hidden : List Nat) (content : Value) (store : Store) : Prop where
  cells : ∀ value ∈ store.cells, value.Public hidden store.cells.length
  arrays : ∀ elements ∈ store.arrays, ∀ value ∈ elements, value.Public hidden store.cells.length
  kept : ∀ address ∈ hidden, store.cells[address]? = some content

namespace Store.Hides

variable {hidden more : List Nat} {content value : Value} {store : Store}

/-- A store that hides many cells hides some of them. -/
theorem fewer (hides : store.Hides more content) (among : hidden ⊆ more) :
    store.Hides hidden content where
  cells value member := (hides.cells value member).fewer among
  arrays elements member value inside := (hides.arrays elements member value inside).fewer among
  kept address member := hides.kept address (among member)

/-- Hidden cells are in the store. -/
theorem lt_length (hides : store.Hides hidden content) {address : Nat} (member : address ∈ hidden) :
    address < store.cells.length :=
  (List.getElem?_eq_some_iff.1 (hides.kept address member)).1

/-- A new cell is public. -/
theorem newCell (hides : store.Hides hidden content)
    (isPublic : value.Public hidden store.cells.length) :
    Hides hidden content { store with cells := store.cells ++ [value] } ∧
      (Value.cell store.cells.length).Public hidden (store.cells ++ [value]).length := by
  have grown : store.cells.length ≤ (store.cells ++ [value]).length := by simp
  refine ⟨⟨?_, ?_, fun address member => ?_⟩, Value.Public.cell_iff.2 ⟨by simp, fun member => ?_⟩⟩
  · intro other member
    rcases List.mem_append.1 member with member | member
    · exact (hides.cells other member).mono grown
    · exact List.mem_singleton.1 member ▸ isPublic.mono grown
  · exact fun elements member other inside => (hides.arrays elements member other inside).mono grown
  · rw [List.getElem?_append_left (hides.lt_length member)]
    exact hides.kept address member
  · exact Nat.lt_irrefl _ (hides.lt_length member)

/-- A new cell with the content of the hidden ones may be hidden as well. -/
theorem hide (hides : store.Hides hidden content)
    (isPublic : content.Public hidden store.cells.length) :
    Hides (store.cells.length :: hidden) content
      { store with cells := store.cells ++ [content] } := by
  have grown : store.cells.length ≤ (store.cells ++ [content]).length := by simp
  refine ⟨?_, ?_, List.forall_mem_cons.2 ⟨by simp, (hides.newCell isPublic).1.kept⟩⟩
  · intro other member
    rcases List.mem_append.1 member with member | member
    · exact (hides.cells other member).hide.mono grown
    · exact List.mem_singleton.1 member ▸ isPublic.hide.mono grown
  · exact fun elements member other inside =>
      (hides.arrays elements member other inside).hide.mono grown

end Store.Hides

/-! ## Steps that keep to themselves -/

/-- A step leaves hidden cells as they are and stores them nowhere. What it needs to know is known
of a store with a number of cells, and what it answers of the store that it leaves. -/
def Eval.Discreet {α : Type} (hidden : List Nat) (content : Value) (count : Nat) (step : Eval α)
    (fine : Nat → α → Prop) : Prop :=
  ∀ store answer after, store.Hides hidden content → count ≤ store.cells.length →
    step store = .ok (answer, after) →
      after.Hides hidden content ∧ store.cells.length ≤ after.cells.length ∧
        fine after.cells.length answer

namespace Eval.Discreet

variable {α β : Type} {hidden : List Nat} {content value : Value} {count : Nat} {world : World}
  {fine : Nat → α → Prop}

theorem pure {answer : α} (here : ∀ later, count ≤ later → fine later answer) :
    Discreet hidden content count (pure answer) fine := by
  rintro store _ _ hides known ⟨⟩
  exact ⟨hides, Nat.le_refl _, here _ known⟩

theorem throw {stop : Stop} : Discreet hidden content count (throw stop : Eval α) fine := nofun

/-- The store that is read hides what is hidden. -/
theorem get : Discreet hidden content count get fun later store =>
    later = store.cells.length ∧ store.Hides hidden content := by
  rintro store _ _ hides known ⟨⟩
  exact ⟨hides, Nat.le_refl _, rfl, hides⟩

/-- Two steps in a row are discreet if both are. -/
theorem bind {step : Eval α} {rest : α → Eval β} {middle : Nat → α → Prop} {fine : Nat → β → Prop}
    (one : Discreet hidden content count step middle)
    (other : ∀ value later, count ≤ later → middle later value →
      Discreet hidden content later (rest value) fine) :
    Discreet hidden content count (step >>= rest) fine := by
  intro store answer after hides known made
  obtain ⟨value, between, here, later⟩ := stepped_bind_iff.1 made
  obtain ⟨hidesBetween, grown, found⟩ := one store value between hides known here
  obtain ⟨hidesAfter, more, last⟩ := other value _ (Nat.le_trans known grown) found between answer
    after hidesBetween (Nat.le_refl _) later
  exact ⟨hidesAfter, Nat.le_trans grown more, last⟩

/-- An answer that is expected gives nothing away. -/
theorem expect {found : Option α}
    (here : ∀ answer, found = some answer → ∀ later, count ≤ later → fine later answer) :
    Discreet hidden content count (expect found) fine := by
  cases found with
  | none => exact throw
  | some answer => exact pure (here answer rfl)

/-- A new cell holds a public value, and is public itself. -/
theorem newCell (isPublic : value.Public hidden count) :
    Discreet hidden content count (newCell value) (Value.Public hidden) := by
  rintro store _ _ hides known ⟨⟩
  obtain ⟨hidesAfter, made⟩ := hides.newCell (isPublic.mono known)
  exact ⟨hidesAfter, by simp, made⟩

/-- What a cell holds is public, even if the cell is not. -/
theorem contentOf : Discreet hidden content count (contentOf value) (Value.Public hidden) := by
  cases value with
  | cell address =>
      refine get.bind fun store later _ ⟨same, hides⟩ => expect fun answer found more grown => ?_
      rw [same] at grown
      exact (hides.cells answer (List.mem_of_getElem? found)).mono grown
  | _ => exact throw

/-- The elements of a public array are public. -/
theorem elementsOf : Discreet hidden content count (elementsOf value) fun later elements =>
    ∀ element ∈ elements, element.Public hidden later := by
  cases value with
  | array address =>
      refine get.bind fun store later _ ⟨same, hides⟩ =>
        expect fun answer found more grown element member => ?_
      rw [same] at grown
      exact (hides.arrays answer (List.mem_of_getElem? found) element member).mono grown
  | _ => exact throw

/-- A position in an array gives nothing away. -/
theorem positionIn {elements : List Value} :
    Discreet hidden content count (positionIn elements value) fun _ _ => True := by
  cases value with
  | int position =>
      unfold Eval.positionIn
      dsimp only
      split
      · exact pure fun _ _ => trivial
      · exact throw
  | _ => exact throw

/-- A component of a public tuple is public. -/
theorem componentOf {component : Nat} (isPublic : value.Public hidden count) :
    Discreet hidden content count (componentOf component value) (Value.Public hidden) := by
  cases value with
  | tuple components =>
      exact expect fun answer found later grown =>
        (Value.Public.tuple_iff.1 isPublic answer (List.mem_of_getElem? found)).mono grown
  | _ => exact throw

/-- A new array is public if the world is honest. -/
theorem newArray (honest : world.Honest) :
    Discreet hidden content count (newArray world.blank value) (Value.Public hidden) := by
  cases value with
  | int number =>
      unfold Eval.newArray
      dsimp only
      split
      · exact throw
      · rintro store _ _ hides known ⟨⟩
        refine ⟨⟨hides.cells, fun elements member => ?_, hides.kept⟩, Nat.le_refl _, .of_none rfl⟩
        rcases List.mem_append.1 member with member | member
        · exact hides.arrays elements member
        · rw [List.mem_singleton.1 member]
          intro element inside
          rw [List.eq_of_mem_replicate inside]
          exact .of_none honest.blank
  | _ => exact throw

/-- A value from an honest world is public. -/
theorem next (honest : world.Honest) :
    Discreet hidden content count (next world) (Value.Public hidden) := by
  rintro store _ _ hides known ⟨⟩
  exact ⟨⟨hides.cells, hides.arrays, hides.kept⟩, Nat.le_refl _, .of_none (honest.stream _)⟩

/-- A public cell may be written to. -/
theorem write {cell : Value} (isCell : cell.Public hidden count)
    (isPublic : value.Public hidden count) :
    Discreet hidden content count (write value cell) fun _ _ => True := by
  cases cell with
  | cell address =>
      intro store answer after hides known made
      obtain ⟨_, _, ⟨⟩, made⟩ := stepped_bind_iff.1 made
      split at made
      · cases made
        refine ⟨⟨fun other member => ?_, ?_, fun other member => ?_⟩, by simp, trivial⟩
        · rw [List.length_set]
          rcases List.mem_or_eq_of_mem_set member with member | rfl
          · exact hides.cells other member
          · exact isPublic.mono known
        · rw [List.length_set]
          exact hides.arrays
        · have differ : address ≠ other := by
            rintro rfl
            exact (Value.Public.cell_iff.1 isCell).2 member
          rw [List.getElem?_set_ne differ]
          exact hides.kept other member
      · cases made
  | _ => exact throw

/-- A write to a public array leaves hidden cells as they are. -/
theorem writeAt {array position : Value} (isPublic : value.Public hidden count) :
    Discreet hidden content count (writeAt array position value) fun _ _ => True := by
  refine elementsOf.bind fun elements later grown each =>
    positionIn.bind fun index more further _ => ?_
  cases array with
  | array address =>
      rintro store _ _ hides known ⟨⟩
      refine ⟨⟨hides.cells, fun others member => ?_, hides.kept⟩, Nat.le_refl _, trivial⟩
      rcases List.mem_or_eq_of_mem_set member with member | rfl
      · exact hides.arrays others member
      · intro element inside
        rcases List.mem_or_eq_of_mem_set inside with inside | rfl
        · exact (each element inside).mono (Nat.le_trans further known)
        · exact isPublic.mono (Nat.le_trans grown (Nat.le_trans further known))
  | _ => exact throw

end Eval.Discreet

end GotoFree.Target
