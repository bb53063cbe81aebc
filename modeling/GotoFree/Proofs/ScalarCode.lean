import GotoFree.Proofs.Cells
import GotoFree.Proofs.Safety

/-!
# The code of scalar blocks

A scalar method is lowered with a cell for every local (`Job.Celled`). The code of an expression
computes what the expression does, and the code of a block is left as the block is (`Job.block`).
-/

namespace GotoFree

open Target (Ended Env Eval Script Stmt Stop Store Value World)

/-- How control comes out of the code of a block. -/
inductive Arrival where
  /-- Along a branch, where some names are bound. -/
  | along (branch : Branch) (env : Env)
  | returns (value : Value)

/-- Runs the code of a block. -/
def Job.Lowered.exec (call : String → List Value → Eval Value) (world : World)
    (lowered : Job.Lowered) (env : Env) : Eval Arrival := do
  match ← lowered.steps.exec call world env with
  | .returns value => return .returns value
  | .falls env =>
      match lowered.condition with
      | none => return .along .exit env
      | some condition =>
          match ← condition.eval call world env with
          | .bool true => return .along .taken env
          | .bool false => return .along .notTaken env
          | _ => throw .stuck

/-- Goes on where control comes out of the code of a block along a branch. -/
def Arrival.andThen (rest : Branch → Env → Eval Arrival) : Arrival → Eval Arrival
  | along branch env => rest branch env
  | returns value => return .returns value

/-- Goes on with other code where control comes out of the code of a block along a branch. -/
def Arrival.goOn (rest : Branch → Env → Eval Ended) : Arrival → Eval Ended
  | along branch env => rest branch env
  | returns value => return .returns value

/-- The code of a block is left as the block is. -/
inductive Cells.Meets (cells : Cells) (cell returned : Cell) :
    Event Memory Value → Arrival × Store → Prop where
  | along {branch : Branch} {env : Env} {memory : Memory} (seen : cells.Seen env) :
      Cells.Meets cells cell returned (.along branch memory)
        (.along branch env, cells.store cell memory)
  | returns {value : Value} {memory : Memory} :
      Cells.Meets cells cell returned (.returns value memory)
        (.returns value, cells.store returned memory)

/-- Code reads a value from the cells. -/
def Cells.Reads (cells : Cells) (value : Memory → Value) (code : Target.Expr) : Prop :=
  ∀ call world env cell memory, cells.Seen env →
    code.eval call world env (cells.store cell memory) =
      .ok (value memory, cells.store cell memory)

/-- The code of an expression computes what the expression does. -/
def Cells.Computes (cells : Cells) (value : Expr) (code : Target.Expr) : Prop :=
  ∀ call world env cell memory, cells.Seen env →
    Matches (fun answer result => result = (answer.1, cells.store cell answer.2))
      (value.run world memory) (code.eval call world env (cells.store cell memory))

/-- The code of a block does what the block does, and what it does to the control cell before it
returns. -/
def Cells.Performs (cells : Cells) (record : Cell → Cell)
    (does : World → Memory → Option (Event Memory Value)) (lowered : Job.Lowered) : Prop :=
  ∀ call world env cell memory, cells.Seen env →
    Matches (cells.Meets cell (record cell)) (does world memory)
      (lowered.exec call world env (cells.store cell memory))

/-- A job for a scalar method with a graph. -/
structure Job.IsScalar (job : Job) (graph : BlockGraph) : Prop where
  method : job.method.IsScalar
  plan : job.plan = .allCells job.method.locals
  built : BlockGraph.ofBlocks job.method.entry job.method.blocks = .ok graph

/-- A scope in which all scalar locals of a method have the cells of a list. -/
structure Job.Celled (job : Job) (cells : Cells) (scope : Scope) : Prop where
  control : cells.hasControl = job.hasControlCell
  locals : scope.locals = cells.names
  areMutable : ∀ name ∈ cells.names, scope.binding? name = some .mutable
  scalars : ∀ name, job.method.IsScalarLocal name → name ∈ cells.names

/-! ## Values -/

namespace Job

variable {job : Job} {cells : Cells} {scope : Scope} (celled : job.Celled cells scope)

include celled

/-- The code of a scalar operand reads its cell. -/
theorem Celled.exists_operand {operand : Operand} (scalar : job.method.IsScalarOperand operand) :
    ∃ code, job.operand scope operand = .ok code ∧
      cells.Reads (fun memory => operand.valueIn memory) code := by
  cases operand with
  | var name =>
      have member := celled.scalars name (scalar name rfl)
      refine ⟨.contentOf name, ?_, fun _ _ _ _ _ seen => seen.eval_local member⟩
      simp [operand, valueOf, bindingOf, celled.areMutable name member, Binding.valueOf]
  | int value => exact ⟨.int value.toInt, rfl, fun _ _ _ _ _ _ => rfl⟩
  | bool value => exact ⟨.bool value, rfl, fun _ _ _ _ _ _ => rfl⟩
  | null => exact ⟨.null, rfl, fun _ _ _ _ _ _ => rfl⟩

omit celled in
/-- A binary operator has the same meaning in the target language. -/
theorem meaning_toTarget {op : BinOp} {world : World} :
    op.toTarget.meaning world.operators = op.meaning world.operators := by
  cases op <;> rfl

omit celled in
/-- A unary operator has the same meaning in the target language. -/
theorem meaning_toTarget_unary {op : UnOp} {world : World} :
    op.toTarget.meaning world.operators = op.meaning world.operators := by
  cases op <;> rfl

omit celled in
/-- An operator answers in code as it does in a run. -/
theorem matches_expect {answer : Option Value} {cell : Cell} {memory : Memory} :
    Matches (fun answer result => result = (answer.1, cells.store cell answer.2))
      (answer.map (·, memory)) (Eval.expect answer (cells.store cell memory)) := by
  cases answer with
  | none => exact .stops
  | some value => exact .answer rfl

/-- The code of a scalar expression computes what it does. -/
theorem Celled.exists_expr {value : Expr} (scalar : job.method.IsScalarExpr value) :
    ∃ code, (∀ instr, job.expr scope instr value = pure (.pure code)) ∧
      cells.Computes value code := by
  cases value with
  | use operand =>
      obtain ⟨code, made, reads⟩ := celled.exists_operand scalar
      refine ⟨code, fun instr => by simp [expr, made], fun _ _ _ _ _ seen => ?_⟩
      rw [reads _ _ _ _ _ seen]
      exact .answer rfl
  | binary op left right =>
      obtain ⟨first, madeFirst, readsFirst⟩ := celled.exists_operand scalar.1
      obtain ⟨second, madeSecond, readsSecond⟩ := celled.exists_operand scalar.2
      refine ⟨.binary op.toTarget first second,
        fun instr => by simp [expr, madeFirst, madeSecond], fun _ _ _ _ _ seen => ?_⟩
      rw [Target.Expr.eval, bind_apply, readsFirst _ _ _ _ _ seen, ok_bind, bind_apply,
        readsSecond _ _ _ _ _ seen, ok_bind, meaning_toTarget]
      exact matches_expect
  | unary op operand =>
      obtain ⟨code, made, reads⟩ := celled.exists_operand scalar
      refine ⟨.unary op.toTarget code, fun instr => by simp [expr, made],
        fun _ _ _ _ _ seen => ?_⟩
      rw [Target.Expr.eval, bind_apply, reads _ _ _ _ _ seen, ok_bind, meaning_toTarget_unary]
      exact matches_expect
  | nondet => exact ⟨.nondet, fun instr => rfl, fun _ _ _ _ _ _ => .answer rfl⟩
  | fieldRead | arrayRead | arrayLength | new | newArray | call | cast | unmodelled => cases scalar

/-! ## Instructions -/

omit celled in
theorem record_eq (coord : Coord) : job.record coord =
    if coord ∈ job.flags.recorded then
      Lower.flag coord >>= fun flag => pure [Script.assign controlCell (.int flag)]
    else pure [] := by
  unfold record
  split <;> rfl

omit celled in
/-- A coordinate is recorded in any case. -/
theorem succeeds_record (coord : Coord) : Lower.Succeeds (job.record coord) fun _ => True := by
  rw [record_eq]
  split
  · exact Lower.Succeeds.flag.bind fun _ _ => .pure trivial
  · exact .pure trivial

/-- The code of a scalar instruction that does not return does what the instruction does. -/
theorem Celled.exists_instr {instr : Instr} (scalar : job.method.IsScalarInstr instr)
    (onward : instr.isReturn = false) :
    ∃ lowered : Lowered, (∀ id, job.instr id scope instr = pure lowered) ∧ lowered.scope = scope ∧
      lowered.condition.isSome = instr.isBranch ∧ lowered.returned = false ∧
      ∀ record, cells.Performs record (fun world => instr.run world) lowered := by
  have skip {instr : Instr} (passes : ∀ world memory, instr.run world memory =
      some (.along .exit memory)) (record : Cell → Cell) :
      cells.Performs record (fun world => instr.run world) (.plain ([], scope)) := by
    intro call world env cell memory seen
    dsimp only
    rw [passes]
    exact .answer (.along seen)
  cases instr with
  | assign target value =>
      cases target with
      | var name =>
          obtain ⟨code, made, computes⟩ := celled.exists_expr scalar.2
          have member := celled.scalars name scalar.1
          refine ⟨.plain ([Script.assign name code], scope), fun id => ?_, rfl, rfl, rfl, ?_⟩
          · simp [Job.instr, plainInstr, made, Computed.pure, assign, store,
              celled.areMutable name member, Script.ofStmts]
          · intro record call world env cell memory seen
            dsimp only
            rw [Instr.run, Lowered.exec, Lowered.plain, Script.assign, Script.exec, bind_apply,
              bind_apply]
            rcases (computes call world env cell memory seen).cases with
              ⟨answer, _, ran, evaluates, rfl⟩ | ⟨ran, stop, fails⟩
            · rw [ran, seen.exec_local member evaluates]
              exact .answer (.along seen)
            · rw [ran, Stmt.exec, bind_apply, fails]
              exact .stops
      | field | arrayElement => cases scalar
  | branch condition =>
      obtain ⟨code, made, computes⟩ := celled.exists_expr scalar
      refine ⟨⟨[], scope, some code, false⟩, fun id => ?_, rfl, rfl, rfl, ?_⟩
      · simp [Job.instr, made, Computed.pure, Script.ofStmts]
      · intro record call world env cell memory seen
        simp only [Instr.run, Lowered.exec, Script.exec, pure_bind]
        rw [bind_apply]
        rcases (computes call world env cell memory seen).cases with
          ⟨⟨truth, after⟩, _, ran, evaluates, rfl⟩ | ⟨ran, stop, fails⟩
        · rw [ran, evaluates]
          cases truth with
          | bool value => cases value <;> exact .answer (.along seen)
          | int | null | unit | tuple | cell | array => exact .stops
        · rw [ran, fails]
          exact .stops
  | goto => exact ⟨.plain ([], scope), fun _ => rfl, rfl, rfl, rfl, skip fun _ _ => rfl⟩
  | nop unreachable =>
      cases unreachable with
      | true => cases scalar
      | false => exact ⟨.plain ([], scope), fun _ => rfl, rfl, rfl, rfl, skip fun _ _ => rfl⟩
  | ret => cases onward
  | identity | call | throw | aliased => cases scalar

/-- The code of a return gives its value behind the record of the exit. -/
theorem Celled.exists_ret (incoming : job.method.incoming = []) {value : Option Operand}
    (scalar : job.method.IsScalarInstr (.ret value)) :
    ∃ code, (∀ id, job.instr id scope (.ret value) = job.record ⟨id, .exit⟩ >>= fun recording =>
        pure ⟨recording ++ [Script.ret code], scope, none, true⟩) ∧
      cells.Reads (fun memory => value.elim .unit (Operand.valueIn memory)) code := by
  have aliases : job.returnAliases scope = [] := by simp [returnAliases, incoming]
  cases value with
  | none =>
      refine ⟨.unit, fun id => ?_, fun _ _ _ _ _ _ => rfl⟩
      simp [Job.instr, ret, aliases, Script.ofStmts]
  | some operand =>
      obtain ⟨code, made, reads⟩ := celled.exists_operand (scalar operand rfl)
      refine ⟨code, fun id => ?_, reads⟩
      simp [Job.instr, ret, made, Lower.check, aliases, Script.ofStmts]

/-- A scalar instruction is lowered. -/
theorem Celled.succeeds_instr (incoming : job.method.incoming = []) {id : BlockId} {instr : Instr}
    (scalar : job.method.IsScalarInstr instr) :
    Lower.Succeeds (job.instr id scope instr) fun lowered => lowered.scope = scope ∧
      lowered.condition.isSome = instr.isBranch ∧ lowered.returned = instr.isReturn := by
  cases returns : instr.isReturn with
  | false =>
      obtain ⟨lowered, made, same, condition, returned, -⟩ := celled.exists_instr scalar returns
      exact made id ▸ .pure ⟨same, condition, returned⟩
  | true =>
      cases instr with
      | ret value =>
          obtain ⟨code, made, -⟩ := celled.exists_ret incoming scalar
          exact made id ▸ (succeeds_record _).bind fun _ _ => .pure ⟨rfl, rfl, rfl⟩
      | _ => cases returns

variable {runner : Runner Memory Value} (flags : runner.flags = job.flags) {final : Progress}
  (order : cells.order = final.recorded.order)

include flags order

/-- The code that records a coordinate does so. -/
theorem Celled.answers_record (coord : Coord) :
    Lower.Answers (·.UpTo final) (job.record coord) fun code =>
    ∀ call world env cell memory, cells.Seen env →
      Script.exec call world code env (cells.store cell memory) =
        .ok (.falls env, cells.store (runner.record coord cell) memory) := by
  rw [record_eq]
  split
  · next recorded =>
    have has := celled.control.trans (hasControlCell_of_recorded recorded)
    refine Lower.Answers.flag.andThen fun flag => .pure fun known => ?_
    obtain ⟨-, rfl⟩ := known
    intro call world env cell memory seen
    rw [Runner.record, flags, if_pos recorded, ← order, Script.assign, Script.exec, bind_apply,
      seen.exec_record has coord, ok_bind]
    rfl
  · next other =>
    refine .pure ?_
    intro call world env cell memory seen
    rw [Runner.record, flags, if_neg other]
    rfl

/-- The code of a scalar instruction does what the instruction does. -/
theorem Celled.answers_instr (incoming : job.method.incoming = []) {id : BlockId} {instr : Instr}
    (scalar : job.method.IsScalarInstr instr) :
    Lower.Answers (·.UpTo final) (job.instr id scope instr)
      (cells.Performs (runner.record ⟨id, .exit⟩) fun world => instr.run world) := by
  cases returns : instr.isReturn with
  | false =>
      obtain ⟨lowered, made, -, -, -, does⟩ := celled.exists_instr scalar returns
      exact made id ▸ .pure (does _)
  | true =>
      cases instr with
      | ret value =>
          obtain ⟨code, made, reads⟩ := celled.exists_ret incoming scalar
          rw [made id]
          refine (celled.answers_record flags order _).andThen fun recording => .pure ?_
          intro records call world env cell memory seen
          dsimp only
          rw [Instr.run, Lowered.exec, bind_apply, Script.exec_append, bind_apply,
            records _ _ _ _ _ seen, ok_bind, Target.Ended.andThen, Script.ret, Script.exec_stmt,
            Stmt.exec, bind_apply, bind_apply, reads _ _ _ _ _ seen]
          exact .answer .returns
      | _ => cases returns

/-! ## Blocks -/

omit celled flags order in
/-- The code of an instruction that does not branch is followed by the code after it. -/
theorem Lowered.exec_append {call : String → List Value → Eval Value} {world : World} {env : Env}
    {head tail : Lowered} (straight : head.condition = none) {scope : Scope} {returned : Bool} :
    (⟨head.steps ++ tail.steps, scope, tail.condition, returned⟩ : Lowered).exec call world env =
      head.exec call world env >>= Arrival.andThen fun _ env => tail.exec call world env := by
  simp only [Lowered.exec, Script.exec_append, bind_assoc, straight]
  congr 1
  funext ended
  cases ended with
  | falls env => simp only [Target.Ended.andThen, pure_bind, Arrival.andThen]
  | returns value => simp only [Target.Ended.andThen, pure_bind, Arrival.andThen]

omit flags order in
/-- Scalar instructions in a row are lowered. -/
theorem Celled.succeeds_instrs (incoming : job.method.incoming = []) {id : BlockId} {index : Nat}
    {instrs : List Instr} (scalar : ∀ instr ∈ instrs, job.method.IsScalarInstr instr)
    (straight : ∀ instr ∈ instrs.dropLast, instr.fanOut = 1) :
    Lower.Succeeds (job.instrs id index scope instrs) fun lowered => lowered.scope = scope ∧
      lowered.condition.isSome = instrs.getLast?.any Instr.isBranch ∧
      (lowered.returned = true → ∃ instr ∈ instrs, instr.isReturn = true) := by
  induction instrs generalizing index with
  | nil => exact .pure ⟨rfl, by simp [Lowered.plain], by simp [Lowered.plain]⟩
  | cons first rest ih =>
      refine Lower.Succeeds.enter.bind fun _ _ => ?_
      refine (celled.succeeds_instr incoming (scalar first (by simp))).bind ?_
      rintro head ⟨same, condition, returned⟩
      rw [same]
      refine (ih (fun instr member => scalar instr (List.mem_cons_of_mem _ member))
        fun instr member => straight instr ?_).bind ?_
      · cases rest with
        | nil => cases member
        | cons => exact List.mem_cons_of_mem _ member
      rintro tail ⟨sameTail, branches, returns⟩
      refine .pure ⟨sameTail, ?_, fun some => ?_⟩
      · cases rest with
        | nil =>
            have none : tail.condition = none := by simpa using branches
            simpa [none] using condition
        | cons second others =>
            have one : first.fanOut = 1 := straight first (by simp)
            have onward : head.condition = none := by
              cases first with
              | branch => cases one
              | _ => simpa [Instr.isBranch] using condition
            rw [onward, List.getLast?_cons_cons, ← branches]
            cases tail.condition <;> rfl
      · rcases Bool.or_eq_true_iff.1 some with here | later
        · exact ⟨first, by simp, returned.symm.trans here⟩
        · obtain ⟨instr, member, isReturn⟩ := returns later
          exact ⟨instr, List.mem_cons_of_mem _ member, isReturn⟩

/-- The code of scalar instructions does what they do. -/
theorem Celled.answers_instrs (incoming : job.method.incoming = []) {id : BlockId} {index : Nat}
    {instrs : List Instr} (scalar : ∀ instr ∈ instrs, job.method.IsScalarInstr instr)
    (straight : ∀ instr ∈ instrs.dropLast, instr.fanOut = 1) :
    Lower.Answers (·.UpTo final) (job.instrs id index scope instrs)
      (cells.Performs (runner.record ⟨id, .exit⟩) fun world => Block.run world instrs) := by
  induction instrs generalizing index with
  | nil => exact .pure fun _ _ _ _ _ seen => .answer (.along seen)
  | cons first rest ih =>
      have isScalar := scalar first (by simp)
      refine Lower.Answers.enter.skip fun _ => ?_
      refine Lower.Answers.bind_known (celled.succeeds_instr incoming isScalar)
        (celled.answers_instr flags order incoming isScalar) ?_
      rintro head ⟨same, condition, -⟩
      rw [same]
      cases rest with
      | nil =>
          rw [Job.instrs, pure_bind]
          refine Lower.Gives.pure fun does => ⟨rfl, fun call world env cell memory seen => ?_⟩
          simpa [Block.run_singleton, Lowered.plain, Lowered.exec] using
            does call world env cell memory seen
      | cons second others =>
          have one : first.fanOut = 1 := straight first (by simp)
          have onward : head.condition = none := by
            cases first with
            | branch => cases one
            | _ => simpa [Instr.isBranch] using condition
          refine (ih (fun instr member => scalar instr (List.mem_cons_of_mem _ member))
            fun instr member => straight instr (by simp_all)).bind fun tail => ?_
          refine Lower.Gives.pure fun later does => ⟨rfl, fun call world env cell memory seen => ?_⟩
          have same : (tail.condition <|> head.condition) = tail.condition := by
            rw [onward]
            cases tail.condition <;> rfl
          dsimp only
          rw [same, Lowered.exec_append onward, bind_apply]
          rcases (does call world env cell memory seen).cases with
            ⟨event, ⟨arrival, store⟩, ran, made, meets⟩ | ⟨ran, stop, fails⟩
          · obtain ⟨after, rfl⟩ := Instr.exit_of_run one ran
            dsimp only at ran
            rw [Block.run, ran, made]
            cases meets with
            | along seenAfter => exact later call world _ cell after seenAfter
          · dsimp only at ran
            rw [Block.run, ran, fails]
            exact .stops

omit celled flags order in
/-- A scalar method takes no argument. -/
theorem IsScalar.incoming {graph : BlockGraph} (isScalar : job.IsScalar graph) :
    job.method.incoming = [] := by
  simp [Method.incoming, isScalar.method.isStatic, isScalar.method.params]

omit celled flags order in
/-- A block of a scalar method introduces no locals. -/
theorem IsScalar.exists_block {graph : BlockGraph} (isScalar : job.IsScalar graph) {id : BlockId}
    (known : id ∈ graph.ids) : ∃ block, graph.block? id = some block ∧
      job.block scope id = job.instrs id 0 scope block.instrs ∧
      (∀ instr ∈ block.instrs, job.method.IsScalarInstr instr) ∧
      ∀ instr ∈ block.instrs.dropLast, instr.fanOut = 1 := by
  obtain ⟨block, found⟩ := BlockGraph.mem_ids_iff.1 known
  obtain ⟨listed, first, straight⟩ := BlockGraph.block_of_ofBlocks isScalar.built found
  refine ⟨block, found, ?_, fun instr member => isScalar.method.instrs instr ?_, straight⟩
  · have isBlock : job.method.block? id = some block := first
    have introduced : ((job.plan.blocks.get? id).getD .empty).entries = [] := by
      rw [isScalar.plan]
      rfl
    unfold Job.block
    simp [isBlock, introduced, openBlock]
  · exact List.mem_flatMap.2 ⟨block, listed, member⟩

omit flags order in
/-- A block of a scalar method is lowered. -/
theorem Celled.succeeds_block {graph : BlockGraph} (isScalar : job.IsScalar graph) {id : BlockId}
    (known : id ∈ graph.ids) :
    Lower.Succeeds (job.block scope id) fun lowered => lowered.scope = scope ∧
      lowered.condition.isSome = graph.isBranching id ∧
      (lowered.returned = true → graph.isReturning id = true) := by
  obtain ⟨block, found, same, scalar, straight⟩ := @IsScalar.exists_block job scope graph isScalar
    id known
  rw [same]
  refine (celled.succeeds_instrs isScalar.incoming scalar straight).imp ?_
  rintro lowered ⟨sameScope, branches, returns⟩
  refine ⟨sameScope, ?_, fun some => ?_⟩
  · simpa [BlockGraph.isBranching, found, Block.isBranching, Block.last?] using branches
  · obtain ⟨instr, member, isReturn⟩ := returns some
    -- A return stands in the last place of its block.
    have last : block.instrs.getLast? = Option.some instr := by
      have nonempty := List.ne_nil_of_mem member
      rw [← List.dropLast_concat_getLast nonempty, List.mem_append, List.mem_singleton] at member
      rcases member with early | rfl
      · have one := straight instr early
        cases instr with
        | ret => cases one
        | _ => cases isReturn
      · exact List.getLast?_eq_some_getLast nonempty
    simp [BlockGraph.isReturning, found, Block.isReturning, Block.last?, last, isReturn]

/-- The code of a block does what the block does. -/
theorem Celled.answers_block {graph : BlockGraph} (isScalar : job.IsScalar graph) {id : BlockId}
    (known : id ∈ graph.ids) :
    Lower.Answers (·.UpTo final) (job.block scope id)
      (cells.Performs (runner.record ⟨id, .exit⟩) fun world => graph.exec world id) := by
  obtain ⟨block, found, same, scalar, straight⟩ := @IsScalar.exists_block job scope graph isScalar
    id known
  have does (world : World) : graph.exec world id = Block.run world block.instrs := by
    funext memory
    rw [BlockGraph.exec, found, Option.bind_some]
  simp only [does, same]
  exact celled.answers_instrs flags order isScalar.incoming scalar straight

end Job

end GotoFree
