import GotoFree.Lowering.Value
import GotoFree.Proofs.Simulation
import GotoFree.Target.Run

/-!
# Methods over scalars

The meaning of methods that compute with integers and booleans: a block runs its instructions on a
memory of locals, and the graph of a method is run from block to block. What the operators do and
which nondeterministic values come up is left open, as in the structured language (`World`).
-/

namespace GotoFree

open Target (Operators Value World)

/-- What an operator does. -/
def BinOp.meaning (operators : Operators) : BinOp → Value → Value → Option Value
  | .add => operators.add
  | .sub => operators.sub
  | .mul => operators.mul
  | .div => operators.div
  | .rem => operators.rem
  | .eq => operators.eq
  | .ne => operators.ne
  | .lt => operators.lt
  | .le => operators.le
  | .gt => operators.gt
  | .ge => operators.ge
  | .and => operators.and
  | .or => operators.or

/-- What an operator does. -/
def UnOp.meaning (operators : Operators) : UnOp → Value → Option Value
  | .neg => operators.neg
  | .not => operators.not

/-- The value that a local of a type starts with. -/
def Ty.initial : Ty → Value
  | .int => .int 0
  | .bool => .bool false
  | .ref _ | .array _ => .null
  | .void => .unit

/-- The state of a method's run. -/
structure Memory where
  locals : String → Value
  /-- The number of nondeterministic values that have come up. -/
  taken : Nat

/-- The memory after a local has got a value. -/
def Memory.set (memory : Memory) (name : String) (value : Value) : Memory :=
  { memory with locals := fun other => if other = name then value else memory.locals other }

/-- The memory at the start of a method: every local has the first value of its type. -/
def Method.memory (method : Method) : Memory where
  locals name := ((method.localType? name).map Ty.initial).getD .unit
  taken := 0

/-! ## Blocks -/

/-- The value of an operand. -/
def Operand.valueIn (memory : Memory) : Operand → Value
  | .var name => memory.locals name
  | .int value => .int value.toInt
  | .bool value => .bool value
  | .null => .null

/-- The value of an expression and the memory after it. Expressions on the heap have none here. -/
def Expr.run (world : World) : Expr → Memory → Option (Value × Memory)
  | .use operand, memory => some (operand.valueIn memory, memory)
  | .binary op left right, memory =>
      (op.meaning world.operators (left.valueIn memory) (right.valueIn memory)).map (·, memory)
  | .unary op operand, memory =>
      (op.meaning world.operators (operand.valueIn memory)).map (·, memory)
  | .nondet, memory =>
      some (world.stream memory.taken, { memory with taken := memory.taken + 1 })
  | .fieldRead .., _ | .arrayRead .., _ | .arrayLength _, _ | .new _, _ | .newArray .., _
  | .call _, _ | .cast .., _ | .unmodelled .., _ => none

/-- What an instruction does; all but branches and returns leave it along its exit. -/
def Instr.run (world : World) : Instr → Memory → Option (Event Memory Value)
  | .assign (.var name) value, memory =>
      (value.run world memory).map fun (result, after) => .along .exit (after.set name result)
  | .branch condition, memory =>
      match condition.run world memory with
      | some (.bool true, after) => some (.along .taken after)
      | some (.bool false, after) => some (.along .notTaken after)
      | _ => none
  | .goto, memory | .nop false, memory => some (.along .exit memory)
  | .ret value, memory => some (.returns (value.elim .unit (Operand.valueIn memory)) memory)
  | .assign (.field ..) _, _ | .assign (.arrayElement ..) _, _ | .nop true, _ | .identity .., _
  | .call _, _ | .throw _, _ | .aliased .., _ => none

/-- What instructions do in their order. -/
def Block.run (world : World) : List Instr → Memory → Option (Event Memory Value)
  | [], memory => some (.along .exit memory)
  | instr :: rest, memory =>
      match instr.run world memory with
      | some (.along .exit after) => run world rest after
      | other => other

/-- What a block of a graph does. -/
def BlockGraph.exec (graph : BlockGraph) (world : World) (id : BlockId) (memory : Memory) :
    Option (Event Memory Value) :=
  (graph.block? id).bind fun block => Block.run world block.instrs memory

/-- A run of the graph from its entry returns a value. -/
def BlockGraph.Returns (graph : BlockGraph) (world : World) (memory : Memory) (value : Value) :
    Prop :=
  ∃ steps after, graph.run (graph.exec world) steps graph.entry memory =
    some (.returned value after)

/-! ## Scalar methods -/

namespace Method

variable (method : Method)

/-- A local is declared as an integer or a boolean. -/
def IsScalarLocal (name : String) : Prop :=
  method.localType? name = some .int ∨ method.localType? name = some .bool

instance (name : String) : Decidable (method.IsScalarLocal name) :=
  inferInstanceAs (Decidable (_ ∨ _))

/-- An operand is a literal or a scalar local. -/
def IsScalarOperand (operand : Operand) : Prop :=
  ∀ name ∈ operand.var?, method.IsScalarLocal name

/-- An expression computes with scalar locals and literals, or answers any value. -/
def IsScalarExpr : Expr → Prop
  | .use operand | .unary _ operand => method.IsScalarOperand operand
  | .binary _ left right => method.IsScalarOperand left ∧ method.IsScalarOperand right
  | .nondet => True
  | .fieldRead .. | .arrayRead .. | .arrayLength _ | .new _ | .newArray .. | .call _ | .cast ..
  | .unmodelled .. => False

/-- An instruction computes with scalar locals, or says where control goes. -/
def IsScalarInstr : Instr → Prop
  | .assign (.var name) value => method.IsScalarLocal name ∧ method.IsScalarExpr value
  | .branch condition => method.IsScalarExpr condition
  | .goto | .nop false => True
  | .ret value => ∀ operand ∈ value, method.IsScalarOperand operand
  | .assign (.field ..) _ | .assign (.arrayElement ..) _ | .nop true | .identity .. | .call _
  | .throw _ | .aliased .. => False

/-- A static method without parameters and without a plan that computes with scalar locals only.
The names of its locals leave those with two underscores in front to lowering. -/
structure IsScalar : Prop where
  isStatic : method.isStatic = true
  params : method.params = []
  plan : method.plan = none
  instrs : ∀ instr ∈ method.instrs, method.IsScalarInstr instr
  names : ∀ declared ∈ method.locals, ¬ "__".toList <+: declared.name.toList

end Method

/-! ## Scalar blocks in a graph -/

section Serving

variable {world : World}

/-- An instruction leads along a branch that its block has. -/
theorem Instr.branch_of_run {instr : Instr} {memory after : Memory} {branch : Branch}
    (ran : instr.run world memory = some (.along branch after)) :
    (branch = .exit ↔ instr.isBranch = false) ∧ (branch = .exit → instr.fanOut = 1) := by
  unfold Instr.run at ran
  split at ran
  · obtain ⟨_, -, same⟩ := Option.map_eq_some_iff.1 ran
    cases same
    simp [Instr.isBranch, Instr.fanOut]
  · split at ran <;> cases ran <;> simp [Instr.isBranch]
  · cases ran
    simp [Instr.isBranch, Instr.fanOut]
  · cases ran
    simp [Instr.isBranch, Instr.fanOut]
  all_goals cases ran

/-- An instruction that returns is a return. -/
theorem Instr.isReturn_of_run {instr : Instr} {memory after : Memory} {value : Value}
    (ran : instr.run world memory = some (.returns value after)) : instr.isReturn = true := by
  unfold Instr.run at ran
  split at ran
  · obtain ⟨_, -, same⟩ := Option.map_eq_some_iff.1 ran
    cases same
  · split at ran <;> cases ran
  · cases ran
  · cases ran
  · rfl
  all_goals cases ran

/-- A scalar instruction does not stop. -/
theorem Instr.not_stops {instr : Instr} {memory after : Memory} :
    instr.run world memory ≠ some (.stops after) := by
  intro ran
  unfold Instr.run at ran
  split at ran
  · obtain ⟨_, -, same⟩ := Option.map_eq_some_iff.1 ran
    cases same
  · split at ran <;> cases ran
  all_goals cases ran

/-- An instruction that neither branches nor returns is left along its exit. -/
theorem Instr.exit_of_run {instr : Instr} (straight : instr.fanOut = 1) {memory : Memory}
    {event : Event Memory Value} (ran : instr.run world memory = some event) :
    ∃ after, event = .along .exit after := by
  cases event with
  | along branch after =>
      have notBranch : instr.isBranch = false := by
        cases instr with
        | branch => cases straight
        | _ => rfl
      exact ⟨after, by rw [(Instr.branch_of_run ran).1.2 notBranch]⟩
  | returns value after =>
      have returns := Instr.isReturn_of_run ran
      cases instr with
      | ret => cases straight
      | _ => cases returns
  | stops after => exact absurd ran Instr.not_stops

namespace Block

theorem run_singleton {instr : Instr} {memory : Memory} :
    Block.run world [instr] memory = instr.run world memory := by
  rw [Block.run]
  split
  · next ran => rw [ran, Block.run]
  · rfl

/-- An instruction before the last one of a block is passed. -/
theorem run_cons {first second : Instr} {rest : List Instr} (straight : first.fanOut = 1)
    {memory : Memory} {event : Event Memory Value}
    (ran : Block.run world (first :: second :: rest) memory = some event) :
    ∃ after, first.run world memory = some (.along .exit after) ∧
      Block.run world (second :: rest) after = some event := by
  rw [Block.run] at ran
  split at ran
  · next after here => exact ⟨after, here, ran⟩
  · next other =>
    obtain ⟨after, rfl⟩ := Instr.exit_of_run straight ran
    exact absurd ran (other after)

/-- The last instruction of a block decides what the block does. -/
theorem exists_last {instrs : List Instr} (straight : ∀ instr ∈ instrs.dropLast, instr.fanOut = 1)
    {memory : Memory} {event : Event Memory Value}
    (ran : Block.run world instrs memory = some event) :
    (instrs = [] ∧ event = .along .exit memory) ∨
      ∃ last before, instrs.getLast? = some last ∧ last.run world before = some event := by
  induction instrs generalizing memory with
  | nil => exact .inl ⟨rfl, (Option.some.inj ran).symm⟩
  | cons first rest ih =>
      refine .inr ?_
      cases rest with
      | nil => exact ⟨first, memory, rfl, run_singleton.symm.trans ran⟩
      | cons second rest =>
          obtain ⟨after, -, later⟩ := run_cons (straight first (by simp)) ran
          have found :=
            ih (fun instr member => straight instr (List.mem_cons_of_mem _ member)) later
          simpa using found

end Block

variable {entry : BlockId} {blocks : List Block} {graph : BlockGraph}

/-- The blocks of a graph are left as their last instructions say. -/
theorem serves_exec (built : BlockGraph.ofBlocks entry blocks = .ok graph) :
    Serves (graph.exec world) graph where
  exit_iff {id memory branch after} ran := by
    obtain ⟨block, found, runs⟩ := Option.bind_eq_some_iff.1 ran
    simp only [BlockGraph.isBranching, found, Option.any_some, Block.isBranching, Block.last?]
    rcases Block.exists_last (BlockGraph.block_of_ofBlocks built found).2.2 runs with
      ⟨empty, same⟩ | ⟨last, before, isLast, here⟩
    · cases same
      simp [empty]
    · simpa [isLast] using (Instr.branch_of_run here).1
  returning {id memory value after} ran := by
    obtain ⟨block, found, runs⟩ := Option.bind_eq_some_iff.1 ran
    simp only [BlockGraph.isReturning, found, Option.any_some, Block.isReturning, Block.last?]
    rcases Block.exists_last (BlockGraph.block_of_ofBlocks built found).2.2 runs with
      ⟨empty, same⟩ | ⟨last, before, isLast, here⟩
    · cases same
    · simpa [isLast] using Instr.isReturn_of_run here

/-- A block of a graph that does not return is left along an edge. -/
theorem exists_edge_of_exec (built : BlockGraph.ofBlocks entry blocks = .ok graph) {id : BlockId}
    {memory after : Memory} {branch : Branch}
    (ran : graph.exec world id memory = some (.along branch after)) :
    ∃ target, graph.HasEdge ⟨id, branch⟩ target := by
  have checked := BlockGraph.checked_ofBlocks built
  have exit_iff := (serves_exec built).exit_iff ran
  cases branching : graph.isBranching id with
  | true =>
      obtain ⟨taken, notTaken, edges⟩ := checked.outEdges_of_isBranching branching
      cases branch with
      | exit => simp [branching] at exit_iff
      | taken => exact ⟨taken, by simp [BlockGraph.HasEdge, edges]⟩
      | notTaken => exact ⟨notTaken, by simp [BlockGraph.HasEdge, edges]⟩
  | false =>
      cases exit_iff.2 branching
      rcases checked.outEdges_of_not_isBranching branching with edges | ⟨target, edges⟩
      · obtain ⟨block, found, runs⟩ := Option.bind_eq_some_iff.1 ran
        have fits := checked.fits found
        have one : block.fanOut = 1 := by
          rcases Block.exists_last (BlockGraph.block_of_ofBlocks built found).2.2 runs with
            ⟨empty, -⟩ | ⟨last, before, isLast, here⟩
          · simp [Block.fanOut, Block.last?, empty]
          · simpa [Block.fanOut, Block.last?, isLast] using (Instr.branch_of_run here).2 rfl
        have none := Block.map_snd_outEdges fits
        rw [← BlockGraph.outEdges_of_block? found, edges] at none
        rw [one, ← none] at fits
        cases fits
      · exact ⟨target, by simp [BlockGraph.HasEdge, edges]⟩

end Serving

end GotoFree
