import GotoFree.Proofs.Cells
import GotoFree.Target.Calls
import GotoFree.Target.Uses

/-!
# What evaluation depends on

The value of an expression depends on the names that it mentions (`Expr.eval_congr`), and evaluating
an expression without calls leaves all cells as they are and only makes new ones
(`Expr.keepsCells_eval`).
-/

namespace GotoFree.Target

variable {call : String → List Value → Eval Value} {world : World} {env other : Env}

/-- An expression uses what a name stands for. -/
def Expr.Mentions (expr : Expr) (name : String) : Prop := .var name ∈ expr.parts

/-- Two environments agree on the names in some expressions. -/
def Env.AgreeOn (env other : Env) (exprs : List Expr) : Prop :=
  ∀ expr ∈ exprs, ∀ name, expr.Mentions name → env.lookup name = other.lookup name

theorem Env.AgreeOn.operands {expr : Expr} (agree : env.AgreeOn other [expr]) :
    env.AgreeOn other expr.operands := by
  intro inner member name mentions
  refine agree expr (List.mem_singleton_self expr) name ?_
  rw [Expr.Mentions, Expr.parts_eq]
  exact List.mem_cons_of_mem _ (List.mem_flatMap.2 ⟨inner, member, mentions⟩)

theorem Env.AgreeOn.head {expr : Expr} {rest : List Expr}
    (agree : env.AgreeOn other (expr :: rest)) : env.AgreeOn other [expr] :=
  fun inner member => agree inner (List.mem_singleton.1 member ▸ List.mem_cons_self)

theorem Env.AgreeOn.tail {expr : Expr} {rest : List Expr}
    (agree : env.AgreeOn other (expr :: rest)) : env.AgreeOn other rest :=
  fun inner member => agree inner (List.mem_cons_of_mem _ member)

mutual

/-- An expression evaluates alike in environments that agree on its names. -/
theorem Expr.eval_congr : ∀ {expr : Expr}, env.AgreeOn other [expr] →
    expr.eval call world env = expr.eval call world other
  | .var name, agree => by
      have same := agree _ (List.mem_singleton_self _) name (List.mem_singleton_self _)
      rw [Expr.eval, Expr.eval, same]
  | .int _, _ | .bool _, _ | .null, _ | .unit, _ | .nondet, _ => rfl
  | .deref _, agree | .mkRef _, agree | .mkArray _, agree | .length _, agree | .proj _ _, agree
  | .unary _ _, agree => by rw [Expr.eval, Expr.eval, Expr.eval_congr agree.operands]
  | .index _ _, agree | .binary _ _ _, agree => by
      rw [Expr.eval, Expr.eval, Expr.eval_congr agree.operands.head,
        Expr.eval_congr agree.operands.tail]
  | .tuple components, agree => by
      rw [Expr.eval, Expr.eval, @Expr.evalAll_congr components agree.operands]
  | .call _ args, agree => by
      rw [Expr.eval, Expr.eval, @Expr.evalAll_congr args agree.operands]

/-- Expressions evaluate alike in environments that agree on their names. -/
theorem Expr.evalAll_congr : ∀ {exprs : List Expr}, env.AgreeOn other exprs →
    Expr.evalAll call world env exprs = Expr.evalAll call world other exprs
  | [], _ => rfl
  | _ :: _, agree => by
      rw [Expr.evalAll, Expr.evalAll, Expr.eval_congr agree.head, Expr.evalAll_congr agree.tail]

end

/-- A name that is not bound in front is looked up behind. -/
theorem lookup_append_of_notMem {front : Env} {name : String}
    (other : name ∉ front.map Prod.fst) : (front ++ env).lookup name = env.lookup name := by
  have unbound : front.lookup name = none := by
    refine List.lookup_eq_none_iff.2 fun entry member => ?_
    simpa using fun same : name = entry.1 => other (same ▸ List.mem_map_of_mem member)
  rw [List.lookup_append, unbound, Option.none_or]

/-- Binding more names changes nothing of a value that mentions none of them. -/
theorem Expr.eval_append {expr : Expr} {front : Env}
    (free : ∀ name ∈ front.map Prod.fst, ¬ expr.Mentions name) :
    expr.eval call world (front ++ env) = expr.eval call world env := by
  refine Expr.eval_congr fun inner member name mentions => ?_
  obtain rfl := List.mem_singleton.1 member
  exact lookup_append_of_notMem fun among => free name among mentions

/-! ## Cells -/

namespace Eval

variable {α β : Type}

/-- A step leaves all cells as they are; it may make new ones. -/
def KeepsCells (step : Eval α) : Prop :=
  ∀ store answer after, step store = .ok (answer, after) → store.cells <+: after.cells

namespace KeepsCells

theorem pure {value : α} : KeepsCells (pure value) := by
  rintro store answer after ⟨⟩
  exact List.prefix_refl _

theorem throw {stop : Stop} : KeepsCells (throw stop : Eval α) := nofun

theorem get : KeepsCells get := by
  rintro store answer after ⟨⟩
  exact List.prefix_refl _

/-- Two steps in a row keep the cells if both do. -/
theorem bind {step : Eval α} {rest : α → Eval β} (one : KeepsCells step)
    (other : ∀ value, KeepsCells (rest value)) : KeepsCells (step >>= rest) := by
  intro store answer after made
  obtain ⟨value, between, here, later⟩ := stepped_bind_iff.1 made
  exact (one store value between here).trans (other value between answer after later)

theorem expect {answer : Option α} : KeepsCells (expect answer) := by
  cases answer with
  | none => exact throw
  | some value => exact pure

/-- A new cell leaves the others as they are. -/
theorem newCell {content : Value} : KeepsCells (newCell content) := by
  rintro store answer after ⟨⟩
  exact List.prefix_append _ _

theorem contentOf {value : Value} : KeepsCells (contentOf value) := by
  cases value with
  | cell address => exact get.bind fun store => expect
  | _ => exact throw

theorem elementsOf {value : Value} : KeepsCells (elementsOf value) := by
  cases value with
  | array address => exact get.bind fun store => expect
  | _ => exact throw

theorem positionIn {elements : List Value} {value : Value} :
    KeepsCells (positionIn elements value) := by
  cases value with
  | int position =>
      unfold Eval.positionIn
      dsimp only
      split
      · exact pure
      · exact throw
  | _ => exact throw

theorem componentOf {component : Nat} {value : Value} :
    KeepsCells (componentOf component value) := by
  cases value with
  | tuple components => exact expect
  | _ => exact throw

/-- A new array is a value, and leaves the cells as they are. -/
theorem newArray {blank size : Value} : KeepsCells (newArray blank size) := by
  cases size with
  | int number =>
      unfold Eval.newArray
      dsimp only
      split
      · exact throw
      · rintro store answer after ⟨⟩
        exact List.prefix_refl _
  | _ => exact throw

/-- A value from the world leaves the cells as they are. -/
theorem next : KeepsCells (next world) := by
  rintro store answer after ⟨⟩
  exact List.prefix_refl _

end KeepsCells

end Eval

mutual

/-- Evaluating an expression without calls leaves all cells as they are. -/
theorem Expr.keepsCells_eval : ∀ expr : Expr, expr.calls = [] →
    (expr.eval call world env).KeepsCells
  | .var _, _ => .expect
  | .int _, _ | .bool _, _ | .null, _ | .unit, _ => .pure
  | .nondet, _ => .next
  | .deref inner, free => (Expr.keepsCells_eval inner free).bind fun _ => .contentOf
  | .mkRef inner, free => (Expr.keepsCells_eval inner free).bind fun _ => .newCell
  | .mkArray inner, free => (Expr.keepsCells_eval inner free).bind fun _ => .newArray
  | .index base position, free =>
      have both := List.append_eq_nil_iff.1 free
      (Expr.keepsCells_eval base both.1).bind fun _ =>
        (Expr.keepsCells_eval position both.2).bind fun _ =>
          Eval.KeepsCells.elementsOf.bind fun _ => Eval.KeepsCells.positionIn.bind fun _ => .expect
  | .length inner, free => (Expr.keepsCells_eval inner free).bind fun _ =>
      Eval.KeepsCells.elementsOf.bind fun _ => .pure
  | .tuple components, free => (Expr.keepsCells_evalAll components free).bind fun _ => .pure
  | .proj inner _, free => (Expr.keepsCells_eval inner free).bind fun _ => .componentOf
  | .binary _ left right, free =>
      have both := List.append_eq_nil_iff.1 free
      (Expr.keepsCells_eval left both.1).bind fun _ =>
        (Expr.keepsCells_eval right both.2).bind fun _ => .expect
  | .unary _ inner, free => (Expr.keepsCells_eval inner free).bind fun _ => .expect

/-- Expressions without calls leave the cells as they are. -/
theorem Expr.keepsCells_evalAll : ∀ exprs : List Expr, Expr.callsOfAll exprs = [] →
    (Expr.evalAll call world env exprs).KeepsCells
  | [], _ => .pure
  | first :: rest, free =>
      have both := List.append_eq_nil_iff.1 free
      (Expr.keepsCells_eval first both.1).bind fun _ =>
        (Expr.keepsCells_evalAll rest both.2).bind fun _ => .pure

end

end GotoFree.Target
