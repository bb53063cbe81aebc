import GotoFree.Proofs.BoundNames
import GotoFree.Proofs.Evaluation
import GotoFree.Proofs.Faithful

/-!
# Objects are records

In both models an object is a record of its slots: a write through a variable that holds the object
replaces the content of one slot, and a read answers the content of a slot (`ObjectModel.Held`).
-/

namespace GotoFree

open Target (Env Eval Pattern Script Stmt Stop Store Value World lookup_append_of_notMem)

/-! ## Patterns -/

section Patterns

variable {handle : Handle} {values : List Value}

/-- Of consecutive slots a pattern names the one that is accessed. -/
theorem Handle.filterMap_zip {start : Nat} :
    (((List.range' start values.length).map fun index =>
        if index = handle.slot then some handle.cell else none).zip values).filterMap
      (fun (name, value) => name.map (·, value)) =
    if start ≤ handle.slot then (values[handle.slot - start]?).toList.map (handle.cell, ·)
    else [] := by
  induction values generalizing start with
  | nil => simp
  | cons first rest ih =>
      rw [List.length_cons, List.range'_succ, List.map_cons, List.zip_cons_cons,
        List.filterMap_cons, ih]
      by_cases here : start = handle.slot
      · subst here
        have past : ¬ handle.slot + 1 ≤ handle.slot := by omega
        simp [past]
      · by_cases later : start ≤ handle.slot
        · have behind : start + 1 ≤ handle.slot := by omega
          have position : handle.slot - start = handle.slot - (start + 1) + 1 := by omega
          simp [here, later, behind, position]
        · have before : ¬ start + 1 ≤ handle.slot := by omega
          simp [here, later, before]

/-- On an object of its width the pattern of an access names the content of the slot. -/
theorem Handle.bound_pattern (wide : values.length = handle.width) {value : Value}
    (found : values[handle.slot]? = some value) :
    handle.pattern.bound (.tuple values) = pure [(handle.cell, value)] := by
  rw [Handle.pattern, Target.Pattern.bound, if_pos (by simp [wide]), ← wide, List.range_eq_range',
    Handle.filterMap_zip]
  simp [found]

/-- A write in the functional model names the contents of all slots. -/
theorem ObjectModel.bound_slotNames (wide : values.length = handle.width) :
    (Pattern.tuple ((slotNames handle).map some)).bound (.tuple values) =
      pure ((slotNames handle).zip values) := by
  have named : (((slotNames handle).map some).zip values).filterMap
      (fun (name, value) => name.map (·, value)) = (slotNames handle).zip values := by
    rw [List.zip_map_left, List.filterMap_map]
    simp
  rw [Target.Pattern.bound, if_pos (by simp [slotNames, wide]), named]

end Patterns

/-! ## Objects -/

namespace ObjectModel

/-- A value is an object with some contents. In the mutable model it has a cell of its own for each
slot, none of which is the cell `owner`. -/
inductive IsObject (store : Store) (owner : Nat) (contents : List Value) :
    ObjectModel → Value → Prop
  | mutable {addresses : List Nat} (wide : addresses.length = contents.length)
      (distinct : addresses.Nodup) (apart : owner ∉ addresses)
      (holds : ∀ (slot address : Nat) (content : Value), addresses[slot]? = some address →
        contents[slot]? = some content → store.cells[address]? = some content) :
      IsObject store owner contents .mutable (.tuple (addresses.map .cell))
  | functional : IsObject store owner contents .functional (.tuple contents)

/-- The variable `owner` is a cell with an object in it. -/
structure Held (model : ObjectModel) (owner : String) (address : Nat) (object : Value)
    (contents : List Value) (env : Env) (store : Store) : Prop where
  named : env.lookup owner = some (.cell address)
  stored : store.cells[address]? = some object
  isObject : model.IsObject store address contents object

section Accesses

variable {model : ObjectModel} {owner : String} {address : Nat} {object : Value}
  {contents : List Value} {env inside : Env} {store after between : Store} {slot : Nat}
  {call : String → List Value → Eval Value} {world : World} {pointer cell : String}

/-- An object is held where its owner is bound alike. -/
theorem Held.withEnv (held : model.Held owner address object contents env store)
    (same : inside.lookup owner = env.lookup owner) :
    model.Held owner address object contents inside store :=
  ⟨same.trans held.named, held.stored, held.isObject⟩

/-- Where all cells are left as they are, so is the object. -/
theorem Held.of_isPrefix (held : model.Held owner address object contents env store)
    (kept : store.cells <+: after.cells) :
    model.Held owner address object contents env after := by
  have keeps {position : Nat} {value : Value} (found : store.cells[position]? = some value) :
      after.cells[position]? = some value := by
    obtain ⟨bound, -⟩ := List.getElem?_eq_some_iff.1 found
    obtain ⟨more, same⟩ := kept
    rw [← same, List.getElem?_append_left bound, found]
  refine ⟨held.named, keeps held.stored, ?_⟩
  cases held.isObject with
  | functional => exact .functional
  | mutable wide distinct apart holds =>
      exact .mutable wide distinct apart fun slot address content isAddress isContent =>
        keeps (holds slot address content isAddress isContent)

/-- The cells of an object in the mutable model. -/
theorem IsObject.of_mutable {addresses : List Nat}
    (isObject : IsObject store address contents .mutable (.tuple (addresses.map .cell))) :
    addresses.length = contents.length ∧ addresses.Nodup ∧ address ∉ addresses ∧
      ∀ (slot address : Nat) (content : Value), addresses[slot]? = some address →
        contents[slot]? = some content → store.cells[address]? = some content := by
  generalize same : Value.tuple (addresses.map .cell) = object at isObject
  cases isObject with
  | @mutable others wide distinct apart holds =>
      obtain rfl : addresses = others :=
        List.map_injective_iff.2 (fun _ _ => Value.cell.inj) (Value.tuple.inj same)
      exact ⟨wide, distinct, apart, holds⟩

/-- In the mutable model the content of a slot is replaced in the slot's cell. -/
theorem Held.set_mutable {addresses : List Nat} {position : Nat} {content : Value}
    (held : Held .mutable owner address (.tuple (addresses.map .cell)) contents env store)
    (isAddress : addresses[slot]? = some position) :
    position < store.cells.length ∧
      Held .mutable owner address (.tuple (addresses.map .cell)) (contents.set slot content) env
        { store with cells := store.cells.set position content } := by
  obtain ⟨wide, distinct, apart, holds⟩ := held.isObject.of_mutable
  obtain ⟨bound, -⟩ := List.getElem?_eq_some_iff.1 isAddress
  have inside : slot < contents.length := by omega
  obtain ⟨known, -⟩ := List.getElem?_eq_some_iff.1
    (holds slot _ _ isAddress (List.getElem?_eq_getElem inside))
  have differ : position ≠ address := by
    rintro rfl
    exact apart (List.mem_of_getElem? isAddress)
  refine ⟨known, held.named, ?_, .mutable (by simp [wide]) distinct apart ?_⟩
  · rw [List.getElem?_set_ne differ, held.stored]
  · intro index found value isFound isValue
    rw [List.getElem?_set] at isValue
    by_cases here : slot = index
    · subst here
      obtain rfl := Option.some.inj (isAddress.symm.trans isFound)
      rw [if_pos rfl, if_pos inside] at isValue
      exact (List.getElem?_set_self known).trans isValue
    · rw [if_neg here] at isValue
      have other : position ≠ found := by
        rintro rfl
        exact here ((List.getElem?_inj bound distinct).1 (isAddress.trans isFound.symm))
      rw [List.getElem?_set_ne other]
      exact holds index found value isFound isValue

/-- In the functional model the object is replaced as a whole. -/
theorem Held.set_functional {others : List Value}
    (held : Held .functional owner address object contents env store) :
    Held .functional owner address (.tuple others) others env
      { store with cells := store.cells.set address (.tuple others) } := by
  obtain ⟨bound, -⟩ := List.getElem?_eq_some_iff.1 held.stored
  exact ⟨held.named, List.getElem?_set_self bound, .functional⟩

end Accesses

end ObjectModel

/-! ## Accesses -/

/-- An access to a slot of the object in a cell, which is named first. -/
def Access.ofCell (owner pointer cell : String) (place : FieldSlot) : Access where
  before := [Script.bindName pointer (.contentOf owner)]
  handle := ⟨.var pointer, place.slot, place.width, cell⟩
  owner := ⟨owner, true⟩

/-- Lowering opens the access to a field of a local in a cell in this way. -/
theorem Job.openField_ofCell {job : Job} {scope : Scope} {base : String} {field : FieldRef}
    {possibleTypes : SortedSet String} {source : Instr}
    (inCell : job.bindingOf scope base = .ok .mutable) :
    Lower.Yields (job.openField scope base field possibleTypes source) fun access =>
      ∃ pointer cell place, job.slotOf field possibleTypes source = .ok place ∧
        access = .ofCell base pointer cell place := by
  unfold openField
  rw [inCell]
  refine Lower.Yields.check.bind fun place found => Lower.Yields.check.bind ?_
  rintro _ ⟨⟩
  exact Lower.Yields.skip fun pointer => Lower.Yields.skip fun cell =>
    .pure ⟨pointer, cell, place, found, rfl⟩

section Steps

variable {model : ObjectModel} {owner : String} {address : Nat} {object : Value}
  {contents : List Value} {env : Env} {store between : Store} {slot : Nat}
  {call : String → List Value → Eval Value} {world : World} {pointer cell : String}

/-- First the object is named. -/
theorem ObjectModel.Held.exec_before {rest : Script} {place : FieldSlot}
    (held : model.Held owner address object contents env store) :
    Script.exec call world ((Access.ofCell owner pointer cell place).before ++ rest) env store =
      Script.exec call world rest ((pointer, object) :: env) store := by
  rw [Access.ofCell, List.singleton_append, Script.bindName, Script.exec, bind_apply,
    eval_contentOf held.named held.stored, ok_bind]
  rfl

/-- Evaluating a row of variables and one other expression. -/
theorem evalAll_set {names : List String} {values : List Value} {value : Target.Expr}
    {content : Value} (lengths : names.length = values.length)
    (named : ∀ entry ∈ names.zip values, env.lookup entry.1 = some entry.2)
    (inside : slot < names.length)
    (evaluates : value.eval call world env store = .ok (content, between)) :
    Target.Expr.evalAll call world env ((names.map .var).set slot value) store =
      .ok (values.set slot content, between) := by
  induction names generalizing values slot with
  | nil => cases inside
  | cons first rest ih =>
      obtain ⟨known, others, rfl⟩ := List.exists_cons_of_length_eq_add_one lengths.symm
      have here := named (first, known) List.mem_cons_self
      have later : ∀ entry ∈ rest.zip others, env.lookup entry.1 = some entry.2 :=
        fun entry member => named entry (List.mem_cons_of_mem _ member)
      cases slot with
      | zero =>
          rw [List.map_cons, List.set_cons_zero, List.set_cons_zero, Target.Expr.evalAll,
            bind_apply, evaluates, ok_bind, bind_apply, evalAll_vars (Nat.succ.inj lengths) later,
            ok_bind]
          rfl
      | succ slot =>
          rw [List.map_cons, List.set_cons_succ, List.set_cons_succ, Target.Expr.evalAll,
            Target.Expr.eval, here, expect_some, pure_bind, bind_apply,
            ih (Nat.succ.inj lengths) later (Nat.lt_of_succ_lt_succ inside), ok_bind]
          rfl

namespace ObjectModel

/-- A read names the slot and answers its content. -/
theorem Held.exec_read {content : Value}
    (held : model.Held owner address object contents env store)
    (found : contents[slot]? = some content) :
    let access := Access.ofCell owner pointer cell ⟨slot, contents.length⟩
    ∃ bound, Script.exec call world (access.before ++ (model.read access.handle).1) env store =
        .ok (.falls (bound ++ env), store) ∧
      bound.map Prod.fst = [cell, pointer] ∧
      (model.read access.handle).2.eval call world (bound ++ env) store = .ok (content, store) := by
  have opens {values : List Value} {component : Value} (wide : values.length = contents.length)
      (isComponent : values[slot]? = some component) (same : object = .tuple values) :
      Script.exec call world
        ((Access.ofCell owner pointer cell ⟨slot, contents.length⟩).before ++
          [.bind (Access.ofCell owner pointer cell ⟨slot, contents.length⟩).handle.pattern
            (.var pointer)]) env store =
        .ok (.falls ([(cell, component), (pointer, object)] ++ env), store) := by
    have pattern := @Handle.bound_pattern
      (Access.ofCell owner pointer cell ⟨slot, contents.length⟩).handle values wide _ isComponent
    rw [held.exec_before, Script.exec, Target.Expr.eval, List.lookup_cons_self, expect_some,
      pure_bind, same, pattern, pure_bind]
    rfl
  cases held.isObject with
  | functional =>
      refine ⟨_, opens rfl found rfl, rfl, ?_⟩
      rw [read, Target.Expr.eval, Access.ofCell, List.cons_append, List.lookup_cons_self,
        expect_some, pure_apply]
  | @mutable addresses wide distinct apart holds =>
      obtain ⟨inside, -⟩ := List.getElem?_eq_some_iff.1 found
      have isAddress : addresses[slot]? = some addresses[slot] :=
        List.getElem?_eq_getElem (by omega)
      have isComponent : (addresses.map Value.cell)[slot]? = some (.cell addresses[slot]) := by
        rw [List.getElem?_map, isAddress, Option.map_some]
      refine ⟨_, opens (by rw [List.length_map, wide]) isComponent rfl, rfl, ?_⟩
      exact eval_contentOf List.lookup_cons_self (holds slot _ content isAddress found)

section Writes

variable {handle : Handle} {value : Target.Expr} {content : Value}
  (evaluates : value.eval call world env store = .ok (content, between))

include evaluates

/-- In the mutable model a write names the slot's cell and replaces its content. -/
theorem Held.exec_write_mutable {addresses : List Nat}
    (unshared : Held .mutable owner address (.tuple (addresses.map .cell)) contents env between)
    (inside : handle.slot < handle.width) (wide : contents.length = handle.width)
    (base : handle.base = .var pointer)
    (free : ∀ name ∈ [handle.cell, pointer], name ≠ owner ∧ ¬ value.Mentions name) :
    ∃ bound after,
      Script.exec call world [.bind handle.pattern handle.base, Script.assign handle.cell value]
        ((pointer, .tuple (addresses.map .cell)) :: env) store =
          .ok (.falls (bound ++ env), after) ∧
      Held .mutable owner address (.tuple (addresses.map .cell)) (contents.set handle.slot content)
        (bound ++ env) after := by
  obtain ⟨width, -⟩ := unshared.isObject.of_mutable
  have isAddress : addresses[handle.slot]? = some addresses[handle.slot] :=
    List.getElem?_eq_getElem (by omega)
  have isComponent : (addresses.map Value.cell)[handle.slot]? =
      some (.cell addresses[handle.slot]) := by
    rw [List.getElem?_map, isAddress, Option.map_some]
  let bound : Env :=
    [(handle.cell, .cell addresses[handle.slot]), (pointer, .tuple (addresses.map .cell))]
  have evaluated : value.eval call world (bound ++ env) store = .ok (content, between) := by
    have free : ∀ name ∈ bound.map Prod.fst, ¬ value.Mentions name :=
      fun name member => (free name member).2
    rw [Target.Expr.eval_append free, evaluates]
  have sameOwner : (bound ++ env).lookup owner = env.lookup owner :=
    lookup_append_of_notMem fun member => (free owner member).1 rfl
  obtain ⟨known, after⟩ := unshared.set_mutable isAddress
  refine ⟨bound, _, ?_, after.withEnv sameOwner⟩
  have stores : (Stmt.assign handle.cell value).exec call world
      ((handle.cell, .cell addresses[handle.slot]) ::
        (pointer, .tuple (addresses.map .cell)) :: env)
      store = .ok (.falls, _) :=
    exec_assign List.lookup_cons_self evaluated known
  rw [Script.exec, base, Target.Expr.eval, List.lookup_cons_self, expect_some, pure_bind,
    Handle.bound_pattern (by simp [width, wide]) isComponent, pure_bind, Script.assign,
    Script.exec_stmt, bind_apply, List.singleton_append, stores, ok_bind, pure_apply]
  rfl

/-- In the functional model a write names all slots and replaces the object by a new one. -/
theorem Held.exec_write_functional
    (unshared : Held .functional owner address (.tuple contents) contents env between)
    (inside : handle.slot < handle.width) (wide : contents.length = handle.width)
    (base : handle.base = .var pointer)
    (free : ∀ name ∈ slotNames handle ++ [pointer], name ≠ owner ∧ ¬ value.Mentions name) :
    ∃ bound after,
      Script.exec call world [.bind (.tuple ((slotNames handle).map some)) handle.base,
          Script.assign owner (.tuple (((slotNames handle).map .var).set handle.slot value))]
        ((pointer, .tuple contents) :: env) store = .ok (.falls (bound ++ env), after) ∧
      Held .functional owner address (.tuple (contents.set handle.slot content))
        (contents.set handle.slot content) (bound ++ env) after := by
  have lengths : (slotNames handle).length = contents.length := by simp [slotNames, wide]
  let bound : Env := (slotNames handle).zip contents ++ [(pointer, .tuple contents)]
  have names : bound.map Prod.fst = slotNames handle ++ [pointer] := by
    rw [List.map_append, List.map_fst_zip (Nat.le_of_eq lengths)]
    rfl
  have evaluated : value.eval call world (bound ++ env) store = .ok (content, between) := by
    rw [Target.Expr.eval_append fun name member => (free name (names ▸ member)).2, evaluates]
  have sameOwner : (bound ++ env).lookup owner = env.lookup owner :=
    lookup_append_of_notMem fun member => (free owner (names ▸ member)).1 rfl
  have named : ∀ entry ∈ (slotNames handle).zip contents,
      (bound ++ env).lookup entry.1 = some entry.2 := by
    intro entry member
    rw [List.append_assoc, List.lookup_append, lookup_zip nodup_slotNames entry member,
      Option.some_or]
  have replaced : (Target.Expr.tuple (((slotNames handle).map .var).set handle.slot value)).eval
      call world (bound ++ env) store =
        .ok (.tuple (contents.set handle.slot content), between) := by
    rw [Target.Expr.eval, bind_apply, evalAll_set lengths named (by omega) evaluated, ok_bind]
    rfl
  obtain ⟨known, -⟩ := List.getElem?_eq_some_iff.1 unshared.stored
  refine ⟨bound, _, ?_, unshared.set_functional.withEnv sameOwner⟩
  have isOwner := sameOwner.trans unshared.named
  rw [List.append_assoc, List.singleton_append] at replaced isOwner
  rw [Script.exec, base, Target.Expr.eval, List.lookup_cons_self, expect_some, pure_bind,
    bound_slotNames wide, pure_bind, Script.assign, Script.exec_stmt, bind_apply,
    exec_assign isOwner replaced known, ok_bind, pure_apply]
  simp only [bound, Target.Completion.ended, List.append_assoc, List.singleton_append]

end Writes

/-- A write replaces the content of the slot. The names that it binds must be others than those that
the value mentions and than that of the variable. -/
theorem Held.exec_write {value : Target.Expr} {content : Value}
    (held : model.Held owner address object contents env store)
    (inside : slot < contents.length)
    (evaluates : value.eval call world env store = .ok (content, between))
    (unshared : model.Held owner address object contents env between) :
    let access := Access.ofCell owner pointer cell ⟨slot, contents.length⟩
    ∃ steps, model.write access.handle access.owner value = .ok steps ∧
      ((∀ name ∈ pointer :: Script.bound steps, name ≠ owner ∧ ¬ value.Mentions name) →
        ∃ bound other after, Script.exec call world (access.before ++ steps) env store =
            .ok (.falls (bound ++ env), after) ∧
          model.Held owner address other (contents.set slot content) (bound ++ env) after) := by
  intro access
  cases held.isObject with
  | functional =>
      have narrow : ¬ contents.length ≤ slot := by omega
      have written : functional.write access.handle access.owner value =
          .ok [.bind (.tuple ((slotNames access.handle).map some)) access.handle.base,
            Script.assign owner
              (.tuple (((slotNames access.handle).map .var).set access.handle.slot value))] := by
        simp [write, access, Access.ofCell, narrow]
      refine ⟨_, written, fun free => ?_⟩
      obtain ⟨bound, after, ran, heldAfter⟩ := @Held.exec_write_functional _ _ _ _ _ _ call world
        pointer access.handle _ _ evaluates unshared inside rfl rfl (by
          simpa [names_slots, or_comm] using free)
      rw [held.exec_before]
      exact ⟨bound, _, after, ran, heldAfter⟩
  | @mutable addresses width distinct apart holds =>
      refine ⟨_, rfl, fun free => ?_⟩
      have isCell : access.handle.cell ∈ access.handle.pattern.names :=
        Handle.mem_names_pattern.2 ⟨inside, rfl⟩
      obtain ⟨bound, after, ran, heldAfter⟩ := @Held.exec_write_mutable _ _ _ _ _ _ call world
        pointer access.handle _ _ evaluates _ unshared inside rfl rfl
        (List.forall_mem_cons.2 ⟨free access.handle.cell (by simp [isCell]),
          List.forall_mem_singleton.2 (free pointer List.mem_cons_self)⟩)
      rw [held.exec_before]
      exact ⟨bound, _, after, ran, heldAfter⟩

end ObjectModel

end Steps

/-! ## Sequences of accesses -/

/-- An access to a slot of the object in a cell, with the names for the object and for the slot. -/
inductive SlotAccess where
  | read (pointer cell : String) (slot : Nat)
  | write (pointer cell : String) (slot : Nat) (value : Target.Expr)

namespace SlotAccess

/-- The slot of an access. -/
def slot : SlotAccess → Nat
  | read _ _ slot | write _ _ slot _ => slot

/-- The access as lowering opens it, to an object of a width. -/
def opened (owner : String) (width : Nat) : SlotAccess → Access
  | read pointer cell slot | write pointer cell slot _ => .ofCell owner pointer cell ⟨slot, width⟩

/-- The steps of an access. -/
def steps (model : ObjectModel) (owner : String) (width : Nat) (access : SlotAccess) :
    Except WriteFault Script :=
  let opened := access.opened owner width
  match access with
  | read .. => return opened.before ++ (model.read opened.handle).1
  | write _ _ _ value => do
      return opened.before ++ (← model.write opened.handle opened.owner value)

/-- The names that an access binds are others than that of the owner, and a value that it writes
mentions none of them. -/
def Avoids (model : ObjectModel) (owner : String) (width : Nat) (access : SlotAccess) : Prop :=
  ∀ steps, access.steps model owner width = .ok steps → ∀ name ∈ Script.bound steps,
    name ≠ owner ∧ match access with
      | read .. => True
      | write _ _ _ value => ¬ value.Mentions name

/-- Makes an access; a read answers with what it has read. -/
def run (model : ObjectModel) (owner : String) (width : Nat)
    (call : String → List Value → Eval Value) (world : World) (access : SlotAccess) (env : Env) :
    Eval (Option Value × Env) :=
  match access.steps model owner width with
  | .error _ => throw .stuck
  | .ok steps => do
      match ← Script.exec call world steps env with
      | .returns _ => throw .stuck
      | .falls inside =>
          match access with
          | write .. => return (none, inside)
          | read .. =>
              let value := (model.read (access.opened owner width).handle).2
              return (some (← value.eval call world inside), inside)

/-- Makes one access after the other; the answers are what the reads among them have read. -/
def runAll (model : ObjectModel) (owner : String) (width : Nat)
    (call : String → List Value → Eval Value) (world : World) :
    List SlotAccess → Env → Eval (List Value)
  | [], _ => return []
  | access :: rest, env => do
      let (answer, inside) ← access.run model owner width call world env
      return answer.toList ++ (← runAll model owner width call world rest inside)

/-- What is written in a run of accesses: for each access its slot, with the value of a write as it
comes up. Computing the value leaves the object alone. -/
inductive Writes (model : ObjectModel) (owner : String) (width : Nat)
    (call : String → List Value → Eval Value) (world : World) :
    List SlotAccess → Env → Store → List (Nat × Option Value) → Prop
  | nil {env : Env} {store : Store} : Writes model owner width call world [] env store []
  | read {pointer cell : String} {slot : Nat} {rest : List SlotAccess} {env : Env} {store : Store}
      {seen : List (Nat × Option Value)}
      (later : ∀ answer inside after,
        (read pointer cell slot).run model owner width call world env store =
          .ok ((answer, inside), after) →
        Writes model owner width call world rest inside after seen) :
      Writes model owner width call world (read pointer cell slot :: rest) env store
        ((slot, none) :: seen)
  | write {pointer cell : String} {slot : Nat} {value : Target.Expr} {rest : List SlotAccess}
      {env : Env} {store between : Store} {content : Value} {seen : List (Nat × Option Value)}
      (evaluates : value.eval call world env store = .ok (content, between))
      (unshared : ∀ address object contents, model.Held owner address object contents env store →
        model.Held owner address object contents env between)
      (later : ∀ answer inside after,
        (write pointer cell slot value).run model owner width call world env store =
          .ok ((answer, inside), after) →
        Writes model owner width call world rest inside after seen) :
      Writes model owner width call world (write pointer cell slot value :: rest) env store
        ((slot, some content) :: seen)

end SlotAccess

/-- What reads of a record answer, after the writes before them. -/
def recordAnswers : List Value → List (Nat × Option Value) → List Value
  | _, [] => []
  | contents, (slot, none) :: rest => contents[slot]?.toList ++ recordAnswers contents rest
  | contents, (slot, some value) :: rest => recordAnswers (contents.set slot value) rest

namespace ObjectModel

variable {model : ObjectModel} {owner : String} {address : Nat} {object : Value}
  {contents : List Value} {env : Env} {store between : Store} {slot : Nat}
  {call : String → List Value → Eval Value} {world : World} {pointer cell : String}

/-- A read gives the content of the slot, and the object is held as before. -/
theorem Held.run_read {content : Value}
    (held : model.Held owner address object contents env store)
    (found : contents[slot]? = some content)
    (avoids : (SlotAccess.read pointer cell slot).Avoids model owner contents.length) :
    ∃ inside, (SlotAccess.read pointer cell slot).run model owner contents.length call world env
        store = .ok ((some content, inside), store) ∧
      model.Held owner address object contents inside store := by
  obtain ⟨bound, ran, names, answers⟩ :=
    @exec_read _ _ _ _ _ _ _ _ call world pointer cell _ held found
  refine ⟨bound ++ env, ?_, held.withEnv (lookup_append_of_notMem ?_)⟩
  · unfold SlotAccess.run
    simp only [SlotAccess.steps, SlotAccess.opened, pure_eq_ok]
    rw [bind_apply, ran, ok_bind]
    dsimp only
    rw [bind_apply, answers, ok_bind, pure_apply]
  · obtain ⟨within, -⟩ := List.getElem?_eq_some_iff.1 found
    have isCell : cell ∈ (Access.ofCell owner pointer cell
        ⟨slot, contents.length⟩).handle.pattern.names := Handle.mem_names_pattern.2 ⟨within, rfl⟩
    have others := avoids _ rfl
    simp only [SlotAccess.opened, Script.bound_append, List.mem_append] at others
    rw [names]
    intro member
    rcases List.mem_cons.1 member with same | member
    · exact (others cell (.inr (by simpa [read] using isCell))).1 same.symm
    · exact (others pointer (.inl (by simp [Access.ofCell]))).1 (List.mem_singleton.1 member).symm

/-- A write changes the content of the slot, and nothing else. -/
theorem Held.run_write {value : Target.Expr} {content : Value}
    (held : model.Held owner address object contents env store) (inside : slot < contents.length)
    (avoids : (SlotAccess.write pointer cell slot value).Avoids model owner contents.length)
    (evaluates : value.eval call world env store = .ok (content, between))
    (unshared : model.Held owner address object contents env between) :
    ∃ inside other after, (SlotAccess.write pointer cell slot value).run model owner contents.length
        call world env store = .ok ((none, inside), after) ∧
      model.Held owner address other (contents.set slot content) inside after := by
  obtain ⟨steps, written, runs⟩ :=
    @exec_write _ _ _ _ _ _ _ _ _ call world pointer cell _ _ held inside evaluates unshared
  have made : (SlotAccess.write pointer cell slot value).steps model owner contents.length =
      .ok ((Access.ofCell owner pointer cell ⟨slot, contents.length⟩).before ++ steps) := by
    simp only [SlotAccess.steps, SlotAccess.opened, written, ok_bind, pure_eq_ok]
  obtain ⟨bound, other, after, ran, heldAfter⟩ := runs (avoids _ made)
  refine ⟨bound ++ env, other, after, ?_, heldAfter⟩
  unfold SlotAccess.run
  rw [made]
  dsimp only
  rw [bind_apply, ran, ok_bind]
  rfl

/-- A run of accesses reads what a record would. -/
theorem Held.runAll {accesses : List SlotAccess} {seen : List (Nat × Option Value)} {width : Nat}
    (writes : SlotAccess.Writes model owner width call world accesses env store seen)
    (held : model.Held owner address object contents env store) (wide : contents.length = width)
    (inside : ∀ access ∈ accesses, access.slot < width)
    (avoids : ∀ access ∈ accesses, access.Avoids model owner width) :
    ∃ after, SlotAccess.runAll model owner width call world accesses env store =
      .ok (recordAnswers contents seen, after) := by
  induction writes generalizing object contents with
  | nil => exact ⟨_, rfl⟩
  | @read pointer cell slot rest env store seen later ih =>
      subst wide
      obtain ⟨avoidsHere, avoidsRest⟩ := List.forall_mem_cons.1 avoids
      obtain ⟨insideHere, insideRest⟩ := List.forall_mem_cons.1 inside
      change slot < contents.length at insideHere
      have found : contents[slot]? = some contents[slot] := List.getElem?_eq_getElem insideHere
      obtain ⟨inner, ran, heldAfter⟩ :=
        @run_read _ _ _ _ _ _ _ _ call world _ _ _ held found avoidsHere
      obtain ⟨after, ranRest⟩ := ih _ _ _ ran heldAfter rfl insideRest avoidsRest
      refine ⟨after, ?_⟩
      rw [SlotAccess.runAll, bind_apply, ran, ok_bind]
      dsimp only
      rw [bind_apply, ranRest, ok_bind, recordAnswers, found]
      rfl
  | @write pointer cell slot value rest env store middle content seen evaluates unshared later ih =>
      subst wide
      obtain ⟨avoidsHere, avoidsRest⟩ := List.forall_mem_cons.1 avoids
      obtain ⟨insideHere, insideRest⟩ := List.forall_mem_cons.1 inside
      change slot < contents.length at insideHere
      obtain ⟨inner, other, between, ran, heldAfter⟩ :=
        held.run_write insideHere avoidsHere evaluates (unshared _ _ _ held)
      obtain ⟨after, ranRest⟩ :=
        ih _ _ _ ran heldAfter List.length_set insideRest avoidsRest
      refine ⟨after, ?_⟩
      rw [SlotAccess.runAll, bind_apply, ran, ok_bind]
      dsimp only
      rw [bind_apply, ranRest, ok_bind, recordAnswers]
      rfl

/-! ## Both models -/

/-- A point in a run at which a variable holds an object with some contents. -/
structure Holder (model : ObjectModel) (contents : List Value) where
  call : String → List Value → Eval Value
  world : World
  owner : String
  address : Nat
  object : Value
  env : Env
  store : Store
  held : model.Held owner address object contents env store

namespace Holder

variable {accesses : List SlotAccess} {seen : List (Nat × Option Value)} {value : Target.Expr}
  {content : Value}

/-- Accesses are to slots of the object, under names that are free. -/
def Accepts (holder : Holder model contents) (accesses : List SlotAccess) : Prop :=
  ∀ access ∈ accesses,
    access.slot < contents.length ∧ access.Avoids model holder.owner contents.length

/-- An expression has a value, and computing it leaves the object alone. -/
def Computes (holder : Holder model contents) (value : Target.Expr) (content : Value) : Prop :=
  ∃ between, value.eval holder.call holder.world holder.env holder.store = .ok (content, between) ∧
    ∀ address object contents,
      model.Held holder.owner address object contents holder.env holder.store →
        model.Held holder.owner address object contents holder.env between

/-- What accesses write, one after the other. -/
def Writes (holder : Holder model contents) (accesses : List SlotAccess)
    (seen : List (Nat × Option Value)) : Prop :=
  SlotAccess.Writes model holder.owner contents.length holder.call holder.world accesses holder.env
    holder.store seen

/-- Accesses succeed, and the reads among them answer with some values. -/
def Reads (holder : Holder model contents) (accesses : List SlotAccess) (answers : List Value) :
    Prop :=
  ∃ after, SlotAccess.runAll model holder.owner contents.length holder.call holder.world accesses
    holder.env holder.store = .ok (answers, after)

/-- A holder answers every accepted sequence of accesses as the record does. -/
theorem reads (holder : Holder model contents) (accepts : holder.Accepts accesses)
    (writes : holder.Writes accesses seen) :
    holder.Reads accesses (recordAnswers contents seen) :=
  holder.held.runAll writes rfl (fun access member => (accepts access member).1)
    fun access member => (accepts access member).2

/-- Only a call might touch the object while a value is computed. -/
theorem computes_of_calls_eq_nil (holder : Holder model contents) {between : Store}
    (none : value.calls = [])
    (evaluates : value.eval holder.call holder.world holder.env holder.store =
      .ok (content, between)) : holder.Computes value content :=
  ⟨between, evaluates, fun _ _ _ held =>
    held.of_isPrefix (Target.Expr.keepsCells_eval value none _ _ _ evaluates)⟩

end Holder

/-- Both models implement records. A slot that is read after a write has what was written, if it is
the same slot, and what it had before otherwise; and all sequences of accesses to objects with the
same contents that write the same values read the same values in both models, those of a record. -/
theorem implement_records {contents : List Value} :
    (∀ {model : ObjectModel} (holder : Holder model contents) {slot other : Nat}
      {value : Target.Expr} {content old : Value} {pointer cell another last : String},
      holder.Accepts [.write pointer cell slot value, .read another last other] →
      holder.Computes value content → contents[other]? = some old →
        holder.Reads [.write pointer cell slot value, .read another last other]
          [if other = slot then content else old]) ∧
    ∀ (mutable : Holder .mutable contents) (functional : Holder .functional contents)
      {one two : List SlotAccess} {seen : List (Nat × Option Value)}, mutable.Accepts one →
      functional.Accepts two → mutable.Writes one seen → functional.Writes two seen →
        mutable.Reads one (recordAnswers contents seen) ∧
          functional.Reads two (recordAnswers contents seen) := by
  constructor
  · rintro model holder slot other value content old pointer cell another last accepts
      ⟨between, evaluates, unshared⟩ isOld
    have writes : holder.Writes [.write pointer cell slot value, .read another last other]
        [(slot, some content), (other, none)] :=
      .write evaluates unshared fun _ _ _ _ => .read fun _ _ _ _ => .nil
    have reads := holder.reads accepts writes
    have inside := (accepts _ List.mem_cons_self).1
    have answers : recordAnswers contents [(slot, some content), (other, none)] =
        [if other = slot then content else old] := by
      simp only [recordAnswers, List.append_nil, List.getElem?_set]
      by_cases same : slot = other
      · subst same
        have within : slot < contents.length := inside
        simp [within]
      · simp [same, Ne.symm same, isOld]
    rwa [answers] at reads
  · intro mutable functional one two seen acceptsOne acceptsTwo writesOne writesTwo
    exact ⟨mutable.reads acceptsOne writesOne, functional.reads acceptsTwo writesTwo⟩

/-- An object with a tag and two fields, in either model. -/
def holders : Holder .mutable [.int 1, .int 5, .int 7] × Holder .functional [.int 1, .int 5, .int 7]
    where
  fst := {
    call := fun _ _ => throw .tooDeep
    world := ⟨Lower.countingOperators, fun _ => .unit, .unit⟩
    owner := "o"
    address := 0
    object := .tuple ([1, 2, 3].map .cell)
    env := [("o", .cell 0)]
    store := ⟨[.tuple ([1, 2, 3].map .cell), .int 1, .int 5, .int 7], [], 0⟩
    held := ⟨rfl, rfl, .mutable rfl (by decide) (by decide) fun slot address content isAddress
        isContent => by
      rcases slot with _ | _ | _ | slot <;> cases isAddress <;> exact isContent⟩ }
  snd := {
    call := fun _ _ => throw .tooDeep
    world := ⟨Lower.countingOperators, fun _ => .unit, .unit⟩
    owner := "o"
    address := 0
    object := .tuple [.int 1, .int 5, .int 7]
    env := [("o", .cell 0)]
    store := ⟨[.tuple [.int 1, .int 5, .int 7]], [], 0⟩
    held := ⟨rfl, rfl, .functional⟩ }

/-- Writes to a slot and reads it and another one. -/
def writing : List SlotAccess :=
  [.write "__base_ptr_1" "__field_1" 1 (.int 8), .read "__base_ptr_2" "__field_2" 1,
    .read "__base_ptr_3" "__field_3" 2]

/-- Both models give back what was written last. -/
theorem implement_records_writing :
    holders.1.Reads (writing.take 2) [.int 8] ∧
      holders.1.Reads writing [.int 8, .int 7] ∧ holders.2.Reads writing [.int 8, .int 7] := by
  have avoids {model : ObjectModel} : ∀ access ∈ writing, access.Avoids model "o" 3 := by
    intro access member steps made name bound
    simp only [writing, List.mem_cons, List.not_mem_nil, or_false] at member
    have other : "o" ∉ Script.bound steps := by
      cases model <;> rcases member with rfl | rfl | rfl <;> cases made <;> decide
    refine ⟨fun same => other (same ▸ bound), ?_⟩
    rcases member with rfl | rfl | rfl <;> simp [Target.Expr.Mentions, Target.Expr.parts]
  have slots : ∀ access ∈ writing, access.slot < 3 := by decide
  have writes {model : ObjectModel} (holder : Holder model [.int 1, .int 5, .int 7]) :
      holder.Writes writing [(1, some (.int 8)), (1, none), (2, none)] :=
    .write rfl (fun _ _ _ held => held) fun _ _ _ _ => .read fun _ _ _ _ => .read fun _ _ _ _ =>
      .nil
  have accepts : holders.1.Accepts writing :=
    fun access member => ⟨slots access member, avoids access member⟩
  constructor
  · have acceptsFirst : holders.1.Accepts (writing.take 2) :=
      fun access member => accepts access (List.mem_of_mem_take member)
    exact implement_records.1 holders.1 acceptsFirst
      (holders.1.computes_of_calls_eq_nil rfl rfl) rfl
  · exact implement_records.2 holders.1 holders.2 accepts
      (fun access member => ⟨slots access member, avoids access member⟩) (writes _) (writes _)

end ObjectModel

end GotoFree
