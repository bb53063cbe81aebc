import GotoFree.Target.Program

/-!
# What code uses

The expressions in code, each with all expressions in it, and the values that code writes to one
cell. Both are found in the statements of code one by one, wherever they are nested
(`Stmt.collect`), so they do not depend on how the bindings of a script are nested.
-/

namespace GotoFree.Target

mutual

/-- The expression and all expressions in it. -/
def Expr.parts : Expr → List Expr
  | expr@(.var _) | expr@(.int _) | expr@(.bool _) | expr@.null | expr@.unit | expr@.nondet =>
      [expr]
  | expr@(.deref inner) | expr@(.mkRef inner) | expr@(.mkArray inner) | expr@(.length inner)
  | expr@(.proj inner _) | expr@(.unary _ inner) => expr :: inner.parts
  | expr@(.index left right) | expr@(.binary _ left right) => expr :: (left.parts ++ right.parts)
  | expr@(.tuple components) => expr :: partsOfAll components
  | expr@(.call _ args) => expr :: partsOfAll args

/-- The expressions of a list and all expressions in them. -/
def Expr.partsOfAll : List Expr → List Expr
  | [] => []
  | expr :: rest => expr.parts ++ partsOfAll rest

end

/-- The expressions that an expression is made of. -/
def Expr.operands : Expr → List Expr
  | .var _ | .int _ | .bool _ | .null | .unit | .nondet => []
  | .deref inner | .mkRef inner | .mkArray inner | .length inner | .proj inner _
  | .unary _ inner => [inner]
  | .index left right | .binary _ left right => [left, right]
  | .tuple components => components
  | .call _ args => args

mutual

/-- What is found in a statement and in all statements in it. A statement is looked at without the
statements in it. -/
def Stmt.collect {α : Type} (found : Stmt → List α) : Stmt → List α
  | .bind pattern value body => found (.bind pattern value []) ++ collectAll found body
  | .cond condition thenBranch elseBranch =>
      found (.cond condition [] []) ++ collectAll found thenBranch ++ collectAll found elseBranch
  | .assign target value => found (.assign target value)
  | .arrayStore array position value => found (.arrayStore array position value)
  | .ret value => found (.ret value)
  | .assert condition => found (.assert condition)
  | .aliased left right => found (.aliased left right)
  | .expr value => found (.expr value)

/-- What is found in a list of statements and in all statements in them. -/
def Stmt.collectAll {α : Type} (found : Stmt → List α) : List Stmt → List α
  | [] => []
  | stmt :: rest => stmt.collect found ++ collectAll found rest

end

/-- The expressions that a statement itself is made of. -/
def Stmt.operands : Stmt → List Expr
  | .bind _ value _ | .assign _ value | .ret value | .assert value | .expr value => [value]
  | .cond condition _ _ => [condition]
  | .arrayStore array position value => [array, position, value]
  | .aliased left right => [left, right]

/-- The expressions in what a statement itself is made of. -/
def Stmt.ownExprs (stmt : Stmt) : List Expr := stmt.operands.flatMap Expr.parts

/-- The value that a statement itself writes to a cell. -/
def Stmt.ownWrites (cell : String) : Stmt → List Expr
  | .assign target value => if target = cell then [value] else []
  | _ => []

/-- What is found in a step. -/
def Step.collect {α : Type} (found : Stmt → List α) : Step → List α
  | .stmt inner => inner.collect found
  | .bind pattern value => found (.bind pattern value [])

/-- What is found in a script. -/
def Script.collect {α : Type} (found : Stmt → List α) (script : Script) : List α :=
  script.flatMap (Step.collect found)

namespace Function

/-- The expressions in a function. -/
def exprs (function : Function) : List Expr := Stmt.collectAll Stmt.ownExprs function.body

/-- The values that a function writes to a cell. -/
def writes (cell : String) (function : Function) : List Expr :=
  Stmt.collectAll (Stmt.ownWrites cell) function.body

end Function

/-! ## Finding -/

section Collect

variable {α : Type} {found : Stmt → List α}

namespace Stmt

@[simp] theorem collectAll_nil : collectAll found [] = [] := rfl

@[simp] theorem collectAll_cons {first : Stmt} {rest : List Stmt} :
    collectAll found (first :: rest) = first.collect found ++ collectAll found rest := rfl

@[simp] theorem collectAll_append {list more : List Stmt} :
    collectAll found (list ++ more) = collectAll found list ++ collectAll found more := by
  induction list with
  | nil => rfl
  | cons first rest ih => simp [ih]

end Stmt

namespace Script

variable {script other : Script}

@[simp] theorem collect_nil : collect found [] = [] := rfl

@[simp] theorem collect_cons {step : Step} :
    collect found (step :: script) = step.collect found ++ script.collect found := rfl

/-- What is collected from scripts in a row is collected from both. -/
@[simp] theorem collect_append :
    collect found (script ++ other) = script.collect found ++ other.collect found :=
  List.flatMap_append

@[simp] theorem collect_ofStmts {stmts : List Stmt} :
    (ofStmts stmts).collect found = Stmt.collectAll found stmts := by
  induction stmts with
  | nil => rfl
  | cons first rest ih =>
      rw [Stmt.collectAll_cons, ← ih]
      rfl

/-- Nesting the bindings of a script changes nothing of what is found in it. -/
@[simp] theorem collect_stmts : Stmt.collectAll found script.stmts = script.collect found := by
  induction script with
  | nil => rfl
  | cons step rest ih =>
      cases step with
      | stmt stmt => rw [stmts, Stmt.collectAll_cons, ih, collect_cons, Step.collect]
      | bind pattern value =>
          rw [stmts, Stmt.collectAll_cons, Stmt.collect, ih, collect_cons, Step.collect,
            Stmt.collectAll_nil, List.append_nil]

end Script

end Collect

/-! ## Code that leaves a cell alone -/

/-- The expression itself is no operation on the content of a cell. -/
def Expr.Spares (cell : String) : Expr → Prop
  | .binary _ left right => left ≠ .contentOf cell ∧ right ≠ .contentOf cell
  | _ => True

/-- If the expression itself is an operation on the content of a cell, it compares the content with
one of some numbers. -/
def Expr.Compares (cell : String) (numbers : List Int) : Expr → Prop
  | .binary op left right => right ≠ .contentOf cell ∧
      (left = .contentOf cell → op = .eq ∧ ∃ number ∈ numbers, right = .int number)
  | _ => True

/-- No operator in a script takes the content of a cell, and nothing is written to the cell. -/
structure Script.Spares (cell : String) (script : Script) : Prop where
  exprs : ∀ part ∈ script.collect Stmt.ownExprs, part.Spares cell
  writes : script.collect (Stmt.ownWrites cell) = []

namespace Expr

variable {cell name : String} {value : Expr}

theorem partsOfAll_eq {list : List Expr} : partsOfAll list = list.flatMap parts := by
  induction list with
  | nil => rfl
  | cons first rest ih => rw [partsOfAll, ih, List.flatMap_cons]

/-- The parts of an expression are itself and those of its operands. -/
theorem parts_eq {expr : Expr} : expr.parts = expr :: expr.operands.flatMap parts := by
  cases expr <;> simp [parts, operands, partsOfAll_eq]

/-- Something holds of all parts of an expression if it does of it and of those of its operands. -/
theorem forall_parts_iff {fine : Expr → Prop} {expr : Expr} : (∀ part ∈ expr.parts, fine part) ↔
    fine expr ∧ ∀ inner ∈ expr.operands, ∀ part ∈ inner.parts, fine part := by
  rw [parts_eq, List.forall_mem_cons, List.forall_mem_flatMap]

/-- No operator in the expression takes the content of a cell. -/
def SparesAll (cell : String) (expr : Expr) : Prop := ∀ part ∈ expr.parts, part.Spares cell

/-- An expression spares a cell everywhere if it does, and its operands do. -/
theorem sparesAll_iff {expr : Expr} : expr.SparesAll cell ↔
    expr.Spares cell ∧ ∀ inner ∈ expr.operands, inner.SparesAll cell :=
  forall_parts_iff

@[simp] theorem contentOf_inj : contentOf name = contentOf cell ↔ name = cell := by
  simp [contentOf]

@[simp] theorem sparesAll_var : (var name).SparesAll cell :=
  sparesAll_iff.2 ⟨trivial, nofun⟩

@[simp] theorem sparesAll_int {number : Int} : (int number).SparesAll cell :=
  sparesAll_iff.2 ⟨trivial, nofun⟩

@[simp] theorem sparesAll_bool {truth : Bool} : (bool truth).SparesAll cell :=
  sparesAll_iff.2 ⟨trivial, nofun⟩

@[simp] theorem sparesAll_null : null.SparesAll cell :=
  sparesAll_iff.2 ⟨trivial, nofun⟩

@[simp] theorem sparesAll_unit : unit.SparesAll cell :=
  sparesAll_iff.2 ⟨trivial, nofun⟩

@[simp] theorem sparesAll_nondet : nondet.SparesAll cell :=
  sparesAll_iff.2 ⟨trivial, nofun⟩

@[simp] theorem sparesAll_proj {index : Nat} :
    (proj value index).SparesAll cell ↔ value.SparesAll cell := by
  rw [sparesAll_iff]
  simp [Spares, operands]

@[simp] theorem sparesAll_deref : (deref value).SparesAll cell ↔ value.SparesAll cell := by
  rw [sparesAll_iff]
  simp [Spares, operands]

@[simp] theorem sparesAll_contentOf : (contentOf name).SparesAll cell :=
  sparesAll_deref.2 sparesAll_var

@[simp] theorem sparesAll_mkRef : (mkRef value).SparesAll cell ↔ value.SparesAll cell := by
  rw [sparesAll_iff]
  simp [Spares, operands]

@[simp] theorem sparesAll_mkArray : (mkArray value).SparesAll cell ↔ value.SparesAll cell := by
  rw [sparesAll_iff]
  simp [Spares, operands]

@[simp] theorem sparesAll_length : (length value).SparesAll cell ↔ value.SparesAll cell := by
  rw [sparesAll_iff]
  simp [Spares, operands]

@[simp] theorem sparesAll_unary {op : UnOp} :
    (unary op value).SparesAll cell ↔ value.SparesAll cell := by
  rw [sparesAll_iff]
  simp [Spares, operands]

@[simp] theorem sparesAll_index {position : Expr} :
    (index value position).SparesAll cell ↔ value.SparesAll cell ∧ position.SparesAll cell := by
  rw [sparesAll_iff]
  simp [Spares, operands]

@[simp] theorem sparesAll_tuple {components : List Expr} :
    (tuple components).SparesAll cell ↔ ∀ component ∈ components, component.SparesAll cell := by
  rw [sparesAll_iff]
  simp [Spares, operands]

@[simp] theorem sparesAll_call {function : String} {args : List Expr} :
    (call function args).SparesAll cell ↔ ∀ arg ∈ args, arg.SparesAll cell := by
  rw [sparesAll_iff]
  simp [Spares, operands]

/-- A comparison spares a cell if it does not compare its content. -/
theorem sparesAll_binary {op : BinOp} {left right : Expr} :
    (binary op left right).SparesAll cell ↔
      (left ≠ contentOf cell ∧ right ≠ contentOf cell) ∧ left.SparesAll cell ∧
        right.SparesAll cell := by
  rw [sparesAll_iff]
  simp [Spares, operands]

/-- The parts of a test are those of comparisons with its numbers, and disjunctions. -/
theorem forall_parts_anyOf? {fine : Expr → Prop} {test : Expr} {numbers : List Int}
    (isTest : value.anyOf? numbers = some test)
    (each : ∀ number ∈ numbers, ∀ part ∈ (binary .eq value (.int number)).parts, fine part)
    (either : ∀ op left right number,
      fine (binary .or (binary op left right) (binary .eq value (.int number)))) :
    ∀ part ∈ test.parts, fine part := by
  have folded (rest : List Int) (others : ∀ number ∈ rest, number ∈ numbers) (op : BinOp)
      (left right : Expr) (start : ∀ part ∈ (binary op left right).parts, fine part) :
      ∀ part ∈ (rest.foldl (fun tests number => binary .or tests (binary .eq value (.int number)))
        (binary op left right)).parts, fine part := by
    induction rest generalizing op left right with
    | nil => exact start
    | cons second later ih =>
        obtain ⟨here, behind⟩ := List.forall_mem_cons.1 others
        refine ih behind .or _ _ (forall_parts_iff.2 ⟨either op left right second, ?_⟩)
        exact List.forall_mem_cons.2 ⟨start, List.forall_mem_singleton.2 (each second here)⟩
  cases numbers with
  | nil => cases isTest
  | cons first rest =>
      cases isTest
      exact folded rest (fun _ => List.mem_cons_of_mem _) .eq _ _ (each first List.mem_cons_self)

/-- A test of another value takes nothing of the cell. -/
theorem sparesAll_anyOf? {test : Expr} {numbers : List Int} (other : value ≠ contentOf cell)
    (inside : value.SparesAll cell) (isTest : value.anyOf? numbers = some test) :
    test.SparesAll cell :=
  forall_parts_anyOf? isTest
    (fun _ _ => sparesAll_binary.2 ⟨⟨other, nofun⟩, inside, sparesAll_int⟩)
    fun _ _ _ _ => ⟨nofun, nofun⟩

/-- What spares a cell compares it with no other numbers. -/
theorem Spares.compares {part : Expr} {numbers : List Int} (spares : part.Spares cell) :
    part.Compares cell numbers := by
  cases part with
  | binary op left right => exact ⟨spares.2, fun same => absurd same spares.1⟩
  | _ => trivial

/-- A test of the cell compares its content with the numbers of the test. -/
theorem compares_anyOf? {test : Expr} {listed numbers : List Int}
    (isTest : (contentOf cell).anyOf? listed = some test)
    (known : ∀ number ∈ listed, number ∈ numbers) :
    ∀ part ∈ test.parts, part.Compares cell numbers := by
  refine forall_parts_anyOf? isTest (fun number member => forall_parts_iff.2 ⟨?_, ?_⟩)
    fun _ _ _ _ => ⟨nofun, nofun⟩
  · exact ⟨nofun, fun _ => ⟨rfl, number, known number member, rfl⟩⟩
  · refine List.forall_mem_cons.2 ⟨fun part inside => ?_, List.forall_mem_singleton.2 ?_⟩
    · exact (sparesAll_contentOf part inside).compares
    · exact fun part inside => (sparesAll_int part inside).compares

end Expr

namespace Script

variable {cell name : String} {value : Expr} {script other : Script}

@[simp] theorem spares_nil : Spares cell [] := ⟨by simp, rfl⟩

/-- Scripts in a row spare a cell if both do. -/
@[simp] theorem spares_append : Spares cell (script ++ other) ↔
    Spares cell script ∧ Spares cell other := by
  constructor
  · rintro ⟨exprs, writes⟩
    simp only [collect_append, List.mem_append, List.append_eq_nil_iff] at exprs writes
    exact ⟨⟨fun part member => exprs part (.inl member), writes.1⟩,
      fun part member => exprs part (.inr member), writes.2⟩
  · rintro ⟨⟨exprs, writes⟩, others, more⟩
    refine ⟨fun part member => ?_, by simp [writes, more]⟩
    rw [collect_append, List.mem_append] at member
    exact member.elim (exprs part) (others part)

theorem spares_cons {step : Step} : Spares cell (step :: script) ↔
    Spares cell [step] ∧ Spares cell script :=
  @spares_append cell [step] script

/-- A statement that is no write, and holds no others, leaves a cell alone if its expressions do. -/
theorem spares_stmt {stmt : Stmt} (exprs : stmt.collect Stmt.ownExprs = stmt.ownExprs)
    (writes : stmt.collect (Stmt.ownWrites cell) = [])
    (spares : ∀ value ∈ stmt.operands, value.SparesAll cell) : Spares cell [.stmt stmt] := by
  refine ⟨fun part member => ?_, by simp [Step.collect, writes]⟩
  simp only [collect_cons, collect_nil, List.append_nil, Step.collect, exprs, Stmt.ownExprs,
    List.mem_flatMap] at member
  obtain ⟨value, among, inside⟩ := member
  exact spares value among part inside

@[simp] theorem spares_bind {pattern : Pattern} :
    Spares cell [.bind pattern value] ↔ value.SparesAll cell := by
  constructor
  · rintro ⟨exprs, -⟩
    simpa [Expr.SparesAll, Step.collect, Stmt.ownExprs, Stmt.operands] using exprs
  · intro spares
    refine ⟨?_, by simp [Step.collect, Stmt.ownWrites]⟩
    simpa [Expr.SparesAll, Step.collect, Stmt.ownExprs, Stmt.operands] using spares

@[simp] theorem spares_bindName : Spares cell [bindName name value] ↔ value.SparesAll cell :=
  spares_bind

@[simp] theorem spares_bindCell : Spares cell [bindCell name value] ↔ value.SparesAll cell := by
  rw [bindCell, spares_bindName, Expr.sparesAll_mkRef]

/-- An assignment spares a cell if it stores elsewhere. -/
theorem spares_assign (other : name ≠ cell) (spares : value.SparesAll cell) :
    Spares cell [assign name value] := by
  refine ⟨?_, by simp [assign, Step.collect, Stmt.collect, Stmt.ownWrites, other]⟩
  simpa [assign, Expr.SparesAll, Step.collect, Stmt.collect, Stmt.ownExprs, Stmt.operands]
    using spares

@[simp] theorem spares_ret : Spares cell [ret value] ↔ value.SparesAll cell := by
  constructor
  · rintro ⟨exprs, -⟩
    simpa [ret, Expr.SparesAll, Step.collect, Stmt.collect, Stmt.ownExprs, Stmt.operands]
      using exprs
  · exact fun spares => spares_stmt rfl rfl (by simpa [Stmt.operands] using spares)

/-- A conditional spares a cell if its test and its branches do. -/
theorem spares_cond {thenBranch elseBranch : List Stmt} (condition : value.SparesAll cell)
    (taken : Spares cell (ofStmts thenBranch)) (notTaken : Spares cell (ofStmts elseBranch)) :
    Spares cell [.stmt (.cond value thenBranch elseBranch)] := by
  obtain ⟨exprs, writes⟩ := taken
  obtain ⟨others, more⟩ := notTaken
  rw [collect_ofStmts] at exprs writes others more
  constructor
  · intro part member
    simp only [collect_cons, collect_nil, Step.collect, Stmt.collect, List.append_nil,
      List.mem_append] at member
    rcases member with (own | inside) | inside
    · exact condition part (by simpa [Stmt.ownExprs, Stmt.operands] using own)
    · exact exprs part inside
    · exact others part inside
  · simp [Step.collect, Stmt.collect, Stmt.ownWrites, writes, more]

/-- Nesting the bindings of a script touches no cell. -/
@[simp] theorem spares_stmts : Spares cell (ofStmts script.stmts) ↔ Spares cell script := by
  constructor
  · rintro ⟨exprs, writes⟩
    rw [collect_ofStmts, collect_stmts] at exprs writes
    exact ⟨exprs, writes⟩
  · rintro ⟨exprs, writes⟩
    exact ⟨by rwa [collect_ofStmts, collect_stmts], by rwa [collect_ofStmts, collect_stmts]⟩

theorem spares_ofStmts_iff {stmts : List Stmt} :
    Spares cell (ofStmts stmts) ↔ ∀ stmt ∈ stmts, Spares cell [.stmt stmt] := by
  induction stmts with
  | nil => simp [ofStmts]
  | cons first rest ih =>
      rw [List.forall_mem_cons, ← ih]
      exact spares_cons

/-- A script in parts spares a cell if all parts do. -/
theorem spares_flatMap {α : Type} {list : List α} {made : α → Script}
    (each : ∀ a ∈ list, Spares cell (made a)) : Spares cell (list.flatMap made) := by
  induction list with
  | nil => exact spares_nil
  | cons first rest ih =>
      rw [List.flatMap_cons, spares_append]
      exact ⟨each first (by simp), ih fun a member => each a (List.mem_cons_of_mem _ member)⟩

end Script

end GotoFree.Target
