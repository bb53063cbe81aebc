import GotoFree.Proofs.Names
import GotoFree.Proofs.Scalars
import GotoFree.Proofs.Scripts

/-!
# Locals in cells

The code of a scalar method keeps every local in a cell of its own, behind the control cell if there
is one. The store is then known from the memory of the method and the coordinate recorded last
(`Cells.store`), and reading, writing and testing cells is the same as doing it there. Code
`Matches` a run if it answers as the run does, and not at all where the run has no answer.
-/

namespace GotoFree

open Target (Env Eval Stmt Stop Store Value World)

/-! ## Code and runs -/

/-- Code answers as a run does, and not at all where the run has no answer. -/
inductive Matches {α β : Type} (related : α → β → Prop) : Option α → Except Stop β → Prop where
  | answer {a : α} {b : β} (same : related a b) : Matches related (some a) (.ok b)
  | stops {stop : Stop} : Matches related none (.error stop)

namespace Matches

variable {α β γ δ : Type} {related : α → β → Prop} {later : γ → δ → Prop} {run : Option α}
  {code : Except Stop β}

/-- A run and code that match go on to match if what follows does. -/
theorem bind {rest : α → Option γ} {more : β → Except Stop δ} (first : Matches related run code)
    (goes : ∀ a b, related a b → Matches later (rest a) (more b)) :
    Matches later (run.bind rest) (code >>= more) := by
  cases first with
  | answer same => exact goes _ _ same
  | stops => exact .stops

/-- Code that goes on where the run has answered. -/
theorem andThen {more : β → Except Stop δ} {weaker : α → δ → Prop}
    (first : Matches related run code)
    (goes : ∀ a b, related a b → ∃ d, more b = .ok d ∧ weaker a d) :
    Matches weaker run (code >>= more) := by
  cases first with
  | answer same =>
      obtain ⟨d, made, isWeaker⟩ := goes _ _ same
      rw [ok_bind, made]
      exact .answer isWeaker
  | stops => exact .stops

/-- Either both answer or none does. -/
theorem cases (first : Matches related run code) :
    (∃ a b, run = some a ∧ code = .ok b ∧ related a b) ∨
      (run = none ∧ ∃ stop, code = .error stop) := by
  cases first with
  | answer same => exact .inl ⟨_, _, rfl, rfl, same⟩
  | stops => exact .inr ⟨rfl, _, rfl⟩

end Matches

/-! ## The store -/

/-- The cells of a method: the control cell, if there is one, and a cell for each of some locals. -/
structure Cells where
  /-- The coordinates in the order of their flags. -/
  order : List Coord
  hasControl : Bool
  names : List String
  distinct : names.Nodup
  free : ∀ name ∈ names, ¬ IsReserved name

namespace Cells

variable (cells : Cells)

/-- What the control cell holds when a coordinate was recorded last. -/
def flag : Cell → Int
  | none => 0
  | some coord => cells.order.idxOf coord + 1

/-- The number of control cells. -/
def base : Nat := if cells.hasControl then 1 else 0

/-- The address of the cell of a local. -/
def address (name : String) : Nat := cells.names.idxOf name + cells.base

/-- The store with a coordinate in the control cell and the locals of a memory. -/
def store (cell : Cell) (memory : Memory) : Store where
  cells := (if cells.hasControl then [.int (cells.flag cell)] else []) ++
    cells.names.map memory.locals
  arrays := []
  taken := memory.taken

/-- The names of the cells stand for them. -/
structure Seen (env : Env) : Prop where
  control : cells.hasControl = true → env.lookup controlCell = some (.cell 0)
  locals : ∀ name ∈ cells.names, env.lookup name = some (.cell (cells.address name))

end Cells

section Cells

variable {cells : Cells} {call : String → List Value → Eval Value} {world : World} {env : Env}
  {cell : Cell} {memory : Memory} {name : String}

/-- A name that is bound in front does not concern another one. -/
theorem lookup_cons_of_ne {other : String} (differ : other ≠ name) {value : Value} :
    List.lookup other ((name, value) :: env) = env.lookup other := by
  rw [List.lookup_cons, beq_eq_false_iff_ne.2 differ]

namespace Cells

/-- A name that lowering keeps for itself hides no cell. -/
theorem Seen.cons (seen : cells.Seen env) (reserved : IsReserved name)
    (other : name ≠ controlCell) {value : Value} : cells.Seen ((name, value) :: env) where
  control has := by
    rw [lookup_cons_of_ne other.symm]
    exact seen.control has
  locals found member := by
    rw [lookup_cons_of_ne]
    · exact seen.locals found member
    · rintro rfl
      exact cells.free _ member reserved

/-- The cell of a local holds the value of the local. -/
theorem getElem?_store (member : name ∈ cells.names) :
    (cells.store cell memory).cells[cells.address name]? = some (memory.locals name) := by
  have here : cells.names[cells.names.idxOf name]? = some name := List.getElem?_idxOf member
  unfold store address base
  cases cells.hasControl <;> simp [here]

/-- A store into the cell of a local changes the local. -/
theorem set_store (member : name ∈ cells.names) {value : Value} :
    (cells.store cell memory).cells.set (cells.address name) value =
      (cells.store cell (memory.set name value)).cells := by
  have written : (cells.names.map memory.locals).set (cells.names.idxOf name) value =
      cells.names.map (memory.set name value).locals := by
    refine List.ext_getElem? fun index => ?_
    rw [List.getElem?_set, List.getElem?_map, List.getElem?_map, List.length_map]
    have bound := List.idxOf_lt_length_of_mem member
    by_cases same : cells.names.idxOf name = index
    · subst same
      rw [if_pos rfl, if_pos bound, List.getElem?_idxOf member]
      simp [Memory.set]
    · rw [if_neg same]
      cases found : cells.names[index]? with
      | none => rfl
      | some other =>
          have differ : other ≠ name := by
            rintro rfl
            obtain ⟨inside, rfl⟩ := List.getElem?_eq_some_iff.1 found
            exact same (cells.distinct.idxOf_getElem index inside)
          simp [Memory.set, differ]
  unfold store address base
  cases cells.hasControl <;> simp [written]

end Cells

/-! ## Reading, writing and testing -/

@[simp] theorem expect_some {α : Type} {answer : α} : Eval.expect (some answer) = pure answer := rfl

/-- The content of a cell is read where a name stands for the cell. -/
theorem eval_contentOf {address : Nat} (named : env.lookup name = some (.cell address))
    {store : Store} {content : Value} (holds : store.cells[address]? = some content) :
    (Target.Expr.contentOf name).eval call world env store = .ok (content, store) := by
  rw [Target.Expr.contentOf, Target.Expr.eval, Target.Expr.eval, named, expect_some, pure_bind,
    Eval.contentOf, bind_apply, get_apply, ok_bind, holds, expect_some, pure_apply]

/-- Names evaluate to the values that are bound to them. -/
theorem evalAll_vars {names : List String} {values : List Value}
    (lengths : names.length = values.length)
    (named : ∀ entry ∈ names.zip values, env.lookup entry.1 = some entry.2) {store : Store} :
    Target.Expr.evalAll call world env (names.map .var) store = .ok (values, store) := by
  induction names generalizing values with
  | nil =>
      obtain rfl := List.length_eq_zero_iff.1 lengths.symm
      rfl
  | cons first rest ih =>
      obtain ⟨value, others, rfl⟩ := List.exists_cons_of_length_eq_add_one lengths.symm
      have here := named (first, value) List.mem_cons_self
      have later := ih (Nat.succ.inj lengths) fun entry member =>
        named entry (List.mem_cons_of_mem _ member)
      rw [List.map_cons, Target.Expr.evalAll, Target.Expr.eval, here, expect_some, pure_bind,
        bind_apply, later, ok_bind]
      rfl

/-- Names that are bound to values in order are looked up so. -/
theorem lookup_zip {names : List String} (distinct : names.Nodup) {values : List Value} :
    ∀ entry ∈ names.zip values, (names.zip values).lookup entry.1 = some entry.2 := by
  induction distinct generalizing values with
  | nil => nofun
  | @cons first rest fresh _ ih =>
      cases values with
      | nil => nofun
      | cons value others =>
          intro entry member
          rw [List.zip_cons_cons] at member ⊢
          rcases List.mem_cons.1 member with rfl | member
          · exact List.lookup_cons_self
          · rw [lookup_cons_of_ne (fresh _ (List.of_mem_zip member).1).symm]
            exact ih entry member

/-- The test whether a number is one of some. -/
theorem eval_anyOf? {value test : Target.Expr} {store : Store} {number : Int} {numbers : List Int}
    (evaluates : value.eval call world env store = .ok (.int number, store))
    (isTest : value.anyOf? numbers = some test) :
    test.eval call world env store = .ok (.bool (number ∈ numbers), store) := by
  have single (other : Int) :
      (Target.Expr.binary .eq value (.int other)).eval call world env store =
        .ok (.bool (number = other), store) := by
    rw [Target.Expr.eval, bind_apply, evaluates, ok_bind, Target.Expr.eval, pure_bind,
      Target.BinOp.meaning, world.operators.eq_int, expect_some, pure_apply]
  have several (tests : Target.Expr) (holds : Bool) (rest : List Int)
      (tested : tests.eval call world env store = .ok (.bool holds, store)) :
      (rest.foldl (fun tests other => .binary .or tests (.binary .eq value (.int other)))
          tests).eval call world env store =
        .ok (.bool (holds || (number ∈ rest : Bool)), store) := by
    induction rest generalizing tests holds with
    | nil => simpa using tested
    | cons other rest ih =>
        rw [List.foldl_cons, ih _ (holds || (number = other : Bool))]
        · simp [Bool.or_assoc]
        · rw [Target.Expr.eval, bind_apply, tested, ok_bind, bind_apply, single, ok_bind,
            Target.BinOp.meaning, world.operators.or_bool, expect_some, pure_apply]
  cases numbers with
  | nil => cases isTest
  | cons first rest =>
      cases isTest
      rw [several _ _ rest (single first)]
      simp

/-- An assignment stores a value in the cell that a name stands for. -/
theorem exec_assign {address : Nat} (named : env.lookup name = some (.cell address))
    {value : Target.Expr} {before store : Store} {content : Value}
    (evaluates : value.eval call world env before = .ok (content, store))
    (inside : address < store.cells.length) :
    (Stmt.assign name value).exec call world env before =
      .ok (.falls, { store with cells := store.cells.set address content }) := by
  rw [Stmt.exec, bind_apply, evaluates, ok_bind, named, expect_some, pure_bind, bind_apply,
    Eval.write, bind_apply, get_apply, ok_bind, if_pos inside, set_apply, ok_bind, pure_apply]

namespace Cells

/-- A local is read from its cell. -/
theorem Seen.eval_local (seen : cells.Seen env) (member : name ∈ cells.names) :
    (Target.Expr.contentOf name).eval call world env (cells.store cell memory) =
      .ok (memory.locals name, cells.store cell memory) :=
  eval_contentOf (seen.locals name member) (getElem?_store member)

/-- An assignment to a local changes its cell, and no other one. -/
theorem Seen.exec_local (seen : cells.Seen env) (member : name ∈ cells.names)
    {value : Target.Expr} {content : Value} {before : Store}
    (evaluates : value.eval call world env before = .ok (content, cells.store cell memory)) :
    (Stmt.assign name value).exec call world env before =
      .ok (.falls, cells.store cell (memory.set name content)) := by
  have holds : (cells.store cell memory).cells[cells.address name]? = some (memory.locals name) :=
    getElem?_store member
  rw [exec_assign (seen.locals name member) evaluates (List.getElem?_eq_some_iff.1 holds).1,
    set_store member]
  rfl

/-- The control cell is read for the flag that was stored last. -/
theorem Seen.eval_control (seen : cells.Seen env) (has : cells.hasControl = true) :
    (Target.Expr.contentOf controlCell).eval call world env (cells.store cell memory) =
      .ok (.int (cells.flag cell), cells.store cell memory) :=
  eval_contentOf (seen.control has) (by simp [store, has])

/-- Recording a coordinate. -/
theorem Seen.exec_record (seen : cells.Seen env) (has : cells.hasControl = true) (coord : Coord) :
    (Stmt.assign controlCell (.int (cells.order.idxOf coord + 1))).exec call world env
        (cells.store cell memory) = .ok (.falls, cells.store (some coord) memory) := by
  rw [exec_assign (seen.control has) rfl (by simp [store, has])]
  simp [store, has, flag]

/-- The test whether the flag in the control cell is one of some. -/
theorem Seen.eval_anyOf? (seen : cells.Seen env) (has : cells.hasControl = true) {flags : List Int}
    {test : Target.Expr} (isTest : (Target.Expr.contentOf controlCell).anyOf? flags = some test) :
    test.eval call world env (cells.store cell memory) =
      .ok (.bool (cells.flag cell ∈ flags), cells.store cell memory) :=
  GotoFree.eval_anyOf? (seen.eval_control has) isTest

/-- The flags of some coordinates. -/
def Flagged (cells : Cells) (coords : CoordSet) : List Int → Prop :=
  List.Forall₂ (fun coord flag => coord ∈ cells.order ∧ flag = cells.order.idxOf coord + 1)
    coords.toList

/-- The flag in the control cell is one of those of some coordinates if one of them was recorded
last. -/
theorem Flagged.mem_iff {coords : CoordSet} {flags : List Int}
    (flagged : cells.Flagged coords flags) :
    cells.flag cell ∈ flags ↔ coords.passes cell = true := by
  cases cell with
  | none =>
      simp only [CoordSet.passes, Bool.false_eq_true, iff_false]
      intro member
      obtain ⟨coord, -, -, same⟩ := exists_of_mem_right flagged member
      simp only [flag] at same
      omega
  | some last =>
      simp only [CoordSet.passes, decide_eq_true_eq]
      constructor
      · intro member
        obtain ⟨coord, among, known, same⟩ := exists_of_mem_right flagged member
        have index : cells.order.idxOf coord = cells.order.idxOf last := by
          simp only [flag] at same
          omega
        rw [← (List.idxOf_inj known).1 index]
        exact SortedSet.mem_toList.1 among
      · intro member
        obtain ⟨number, among, -, same⟩ :=
          exists_of_mem_left flagged (SortedSet.mem_toList.2 member)
        rw [same] at among
        exact among

end Cells

end Cells

end GotoFree
