import GotoFree.Proofs.CallFree
import GotoFree.Proofs.LoopExits
import GotoFree.Proofs.Standing
import GotoFree.Target.Uses

/-!
# Returned values

Code returns in three ways: a return instruction hands back its operand, a jump or a gate behind a
loop leaves the function without a value of its own, and a gate behind a loop hands on the value of
the loop. What comes out depends on the region the code is made for: the function of a loop without
returns never hands back a value (`Job.yields_mayReturn_tree`).
-/

namespace GotoFree

open Target (Script Step Stmt)

namespace Target

/-- The value that a statement itself returns. -/
def Stmt.ownReturns : Stmt → List Expr
  | .ret value => [value]
  | _ => []

/-- The values that a function returns. -/
def Function.returned (function : Function) : List Expr :=
  Stmt.collectAll Stmt.ownReturns function.body

/-- The values that a script returns. -/
def Script.returned (script : Script) : List Expr := script.collect Stmt.ownReturns

namespace Script

variable {script other : Script}

@[simp] theorem returned_nil : returned [] = [] := rfl

@[simp] theorem returned_append : returned (script ++ other) = script.returned ++ other.returned :=
  collect_append

@[simp] theorem returned_bindCell {name : String} {content : Expr} :
    returned (bindCell name content :: script) = script.returned :=
  rfl

theorem returned_stmt {stmt : Stmt} :
    returned (.stmt stmt :: script) = stmt.collect Stmt.ownReturns ++ script.returned :=
  rfl

theorem returned_onlyIf {condition : Expr} {stmts : List Stmt} :
    returned [.stmt (.onlyIf condition stmts)] = Stmt.collectAll Stmt.ownReturns stmts := by
  simp [returned_stmt, Stmt.onlyIf, Stmt.collect, Stmt.ownReturns]

theorem returned_ofStmts {stmts : List Stmt} :
    (ofStmts stmts).returned = Stmt.collectAll Stmt.ownReturns stmts :=
  collect_ofStmts

theorem returned_stmts : Stmt.collectAll Stmt.ownReturns script.stmts = script.returned :=
  collect_stmts

end Script

end Target

namespace Job

variable {job : Job} {scope after : Scope} {source : Instr} {value : Target.Expr}
  {steps : Script} {computed : Computed} {id : BlockId}

/-! ## Instructions that return nothing -/

/-- Neither what stands before a value nor what stands after it returns. -/
structure StaysIn (computed : Computed) : Prop where
  before : computed.before.returned = []
  after : Stmt.collectAll Stmt.ownReturns computed.after = []

theorem StaysIn.pure : StaysIn (.pure value) := ⟨rfl, rfl⟩

theorem returned_introduce {binding : Binding} {name : String} :
    Script.returned (binding.introduce name value :: steps) = steps.returned := by
  cases binding <;> rfl

theorem returned_store {name : String} (stored : job.store scope name value = .ok (steps, after)) :
    steps.returned = [] := by
  unfold store at stored
  split at stored
  · cases stored
    rfl
  · cases stored
  · cases stored
    exact returned_introduce
  · cases stored

theorem staysIn_pass {temporaries : Temporaries} {operand : Operand} {position : Nat}
    (made : job.pass scope temporaries operand position = .ok computed) : StaysIn computed := by
  rcases pass_cases made with ⟨name, -, -, rfl⟩ | ⟨-, value, -, rfl⟩
  · exact ⟨rfl, rfl⟩
  · exact .pure

theorem returned_befores {args : List Computed} (parts : ∀ arg ∈ args, StaysIn arg) :
    Script.returned (args.flatMap Computed.before) = [] := by
  induction args with
  | nil => rfl
  | cons first rest ih =>
      obtain ⟨own, others⟩ := List.forall_mem_cons.1 parts
      rw [List.flatMap_cons, Script.returned_append, own.before, ih others]
      rfl

theorem returned_afters {args : List Computed} (parts : ∀ arg ∈ args, StaysIn arg) :
    Stmt.collectAll Stmt.ownReturns (args.flatMap Computed.after) = [] := by
  induction args with
  | nil => rfl
  | cons first rest ih =>
      obtain ⟨own, others⟩ := List.forall_mem_cons.1 parts
      rw [List.flatMap_cons, Stmt.collectAll_append, own.after, ih others]
      rfl

section Fields

variable {base : String} {field : FieldRef} {possibleTypes : SortedSet String} {access : Access}

theorem Opened.returned_before
    (opened : job.Opened scope source base field possibleTypes access) :
    access.before.returned = [] := by
  have shape := opened.before
  split at shape
  · obtain ⟨ending, before, -⟩ := shape
    rw [before]
    rfl
  · rw [shape.1]
    rfl

theorem returned_tieAgain {model : ObjectModel} {handle : Handle} {owner : Owner} :
    Stmt.collectAll Stmt.ownReturns (model.tieAgain handle owner) = [] := by
  cases model with
  | functional => rfl
  | mutable =>
      rw [ObjectModel.tieAgain]
      split <;> rfl

theorem returned_write {model : ObjectModel} {handle : Handle} {owner : Owner}
    (written : model.write handle owner value = .ok steps) : steps.returned = [] := by
  cases model with
  | mutable =>
      cases written
      rfl
  | functional =>
      unfold ObjectModel.write at written
      dsimp only at written
      split at written
      · cases written
      · split at written
        · cases written
        · cases written
          rfl

theorem yields_staysIn_fieldValue :
    Lower.Yields (job.fieldValue scope base field possibleTypes source) StaysIn := by
  refine yields_openField.bind fun access opened => .pure ⟨?_, returned_tieAgain⟩
  rw [Script.returned_append, opened.returned_before]
  rfl

theorem yields_returned_storeField :
    Lower.Yields (job.storeField scope base field possibleTypes value source) fun answer =>
      answer.1.returned = [] ∧ Stmt.collectAll Stmt.ownReturns answer.2 = [] := by
  refine yields_openField.bind fun access opened => ?_
  split
  · next steps written =>
    refine .pure ⟨?_, returned_tieAgain⟩
    rw [Script.returned_append, opened.returned_before, returned_write written]
    rfl
  · exact nofun
  · exact .reject

end Fields

theorem yields_staysIn_call {site : Call} :
    Lower.Yields (job.call scope site source) fun answer =>
      ∀ computed, answer = some computed → StaysIn computed := by
  refine Lower.Yields.skip fun callee => ?_
  split
  · exact .pure nofun
  · refine Lower.Yields.skip fun operands => Lower.Yields.skip fun progress =>
      Lower.Yields.check.bind fun args passed => .pure ?_
    rintro _ ⟨⟩
    have parts : ∀ arg ∈ args, StaysIn arg := by
      intro arg member
      obtain ⟨_, -, made⟩ := exists_of_mem_right (mapM_eq_ok_iff.1 passed) member
      exact staysIn_pass made
    exact ⟨returned_befores parts, returned_afters parts⟩

theorem yields_staysIn_expr {expr : Expr} :
    Lower.Yields (job.expr scope source expr) StaysIn := by
  cases expr with
  | use | unary | newArray | arrayLength | new =>
      exact Lower.Yields.skip fun _ => .pure .pure
  | binary | arrayRead =>
      exact Lower.Yields.skip fun _ => Lower.Yields.skip fun _ => .pure .pure
  | fieldRead => exact yields_staysIn_fieldValue
  | call site =>
      refine yields_staysIn_call.bind fun answer stays => ?_
      split
      · next computed => exact .pure (stays computed rfl)
      · exact .reject
  | nondet => exact .pure .pure
  | cast operand type =>
      unfold expr
      dsimp only
      split
      · exact Lower.Yields.skip fun _ => .pure .pure
      · exact .reject
  | unmodelled => exact .reject

theorem yields_returned_assign {place : Place} :
    Lower.Yields (job.assign scope source value place) fun answer =>
      answer.2.1.loop = scope.loop ∧ answer.1.returned = [] ∧
        Stmt.collectAll Stmt.ownReturns answer.2.2 = [] := by
  cases place with
  | var name =>
      refine Lower.Yields.check.bind fun answer stored => .pure ?_
      exact ⟨(calls_store stored).1, returned_store stored, rfl⟩
  | field => exact yields_returned_storeField.bind fun answer stored => .pure ⟨rfl, stored⟩
  | arrayElement =>
      exact Lower.Yields.skip fun array => Lower.Yields.skip fun position =>
        .pure ⟨rfl, rfl, rfl⟩

theorem yields_returned_plainInstr :
    Lower.Yields (job.plainInstr scope source) fun answer =>
      answer.2.loop = scope.loop ∧ answer.1.returned = [] := by
  cases source with
  | assign target value =>
      refine yields_staysIn_expr.bind fun computed stays =>
        yields_returned_assign.bind fun answer stored => .pure ?_
      obtain ⟨loop, none, noneAfter⟩ := stored
      refine ⟨loop, ?_⟩
      rw [Script.returned_append, Script.returned_append, Script.returned_ofStmts,
        Stmt.collectAll_append, stays.before, none, stays.after, noneAfter]
      rfl
  | call site =>
      refine yields_staysIn_call.bind fun answer stays => ?_
      split
      · next computed =>
        refine .pure ⟨rfl, ?_⟩
        rw [Script.returned_append, Script.returned_append, Script.returned_ofStmts,
          (stays computed rfl).before, (stays computed rfl).after]
        rfl
      · exact .pure ⟨rfl, rfl⟩
  | nop unreachable => cases unreachable <;> exact .pure ⟨rfl, rfl⟩
  | throw | identity | branch | goto | ret => exact .reject
  | aliased => exact Lower.Yields.skip fun _ => Lower.Yields.skip fun _ => .pure ⟨rfl, rfl⟩

/-! ## Return instructions -/

/-- What an instruction hands back: a return does so with its operand, or with nothing. -/
inductive ReturnOf (job : Job) : Instr → Target.Expr → Prop
  | nothing : job.ReturnOf (.ret none) .unit
  | operand {scope : Scope} {operand : Operand} {value : Target.Expr}
      (found : job.operand scope operand = .ok value) :
      job.ReturnOf (.ret (some operand)) value

theorem ReturnOf.fanOut (returns : job.ReturnOf source value) : source.fanOut = 0 := by
  cases returns <;> rfl

theorem ReturnOf.isReturn (returns : job.ReturnOf source value) : source.isReturn = true := by
  cases returns <;> rfl

theorem returned_returnAliases :
    Stmt.collectAll Stmt.ownReturns (job.returnAliases scope) = [] := by
  unfold returnAliases
  generalize job.method.incoming = params
  induction params with
  | nil => rfl
  | cons param rest ih =>
      rw [List.filterMap_cons]
      split
      · exact ih
      · next stmt isAlias =>
        rw [Stmt.collectAll_cons, ih, List.append_nil]
        obtain ⟨target, -, found⟩ := Option.bind_eq_some_iff.1 isAlias
        split at found
        · cases found
          rfl
        · cases found

theorem yields_returned_record {coord : Coord} :
    Lower.Yields (job.record coord) fun steps => steps.returned = [] := by
  unfold record
  split
  · exact Lower.Yields.skip fun flag => .pure rfl
  · exact .pure rfl

theorem yields_returned_ret {result : Option Operand} :
    Lower.Yields (job.ret scope id result) fun steps =>
      ∀ value ∈ steps.returned, job.ReturnOf (.ret result) value := by
  have whole {answer : Target.Expr} (returns : job.ReturnOf (.ret result) answer) :
      Lower.Yields (job.record ⟨id, .exit⟩ >>= fun recording =>
        pure (recording ++ Script.ofStmts (job.returnAliases scope) ++ [Script.ret answer]))
        fun steps => ∀ value ∈ steps.returned, job.ReturnOf (.ret result) value := by
    refine yields_returned_record.bind fun recording none => .pure ?_
    rw [Script.returned_append, Script.returned_append, none, Script.returned_ofStmts,
      returned_returnAliases]
    exact List.forall_mem_singleton.2 returns
  cases result with
  | none => exact whole .nothing
  | some operand =>
      exact Lower.Yields.check.bind fun answer found => whole (.operand found)

theorem yields_returned_instr :
    Lower.Yields (job.instr id scope source) fun lowered =>
      lowered.scope.loop = scope.loop ∧
        ∀ value ∈ lowered.steps.returned, job.ReturnOf source value := by
  have plain : Lower.Yields (do return Lowered.plain (← job.plainInstr scope source))
      fun lowered => lowered.scope.loop = scope.loop ∧
        ∀ value ∈ lowered.steps.returned, job.ReturnOf source value := by
    refine yields_returned_plainInstr.bind fun answer found => .pure ⟨found.1, ?_⟩
    rw [Lowered.plain, found.2]
    exact List.forall_mem_nil _
  cases source with
  | branch condition =>
      refine yields_staysIn_expr.bind fun computed stays => .pure ⟨rfl, ?_⟩
      rw [Script.returned_append, Script.returned_ofStmts, stays.before, stays.after]
      exact List.forall_mem_nil _
  | goto => exact .pure ⟨rfl, List.forall_mem_nil _⟩
  | ret result => exact yields_returned_ret.bind fun steps returns => .pure ⟨rfl, returns⟩
  | identity target from_ =>
      unfold instr
      dsimp only
      split
      · exact .pure ⟨rfl, List.forall_mem_nil _⟩
      · refine Lower.Yields.skip fun param => Lower.Yields.check.bind fun answer stored =>
          .pure ⟨(calls_store stored).1, ?_⟩
        rw [Lowered.plain, returned_store stored]
        exact List.forall_mem_nil _
  | assign | call | nop | throw | aliased => exact plain

theorem yields_returned_instrs {index : Nat} {list : List Instr} :
    Lower.Yields (job.instrs id index scope list) fun lowered =>
      lowered.scope.loop = scope.loop ∧
        ∀ value ∈ lowered.steps.returned, ∃ source ∈ list, job.ReturnOf source value := by
  induction list generalizing index scope with
  | nil => exact .pure ⟨rfl, List.forall_mem_nil _⟩
  | cons first rest ih =>
      refine Lower.Yields.skip fun _ => yields_returned_instr.bind fun head found =>
        ih.bind fun tail others => .pure ⟨others.1.trans found.1, fun value member => ?_⟩
      rw [Script.returned_append, List.mem_append] at member
      rcases member with member | member
      · exact ⟨first, List.mem_cons_self, found.2 value member⟩
      · obtain ⟨source, among, returns⟩ := others.2 value member
        exact ⟨source, List.mem_cons_of_mem _ among, returns⟩

theorem returned_openBlock {defined : List String} {list : List (String × Binding)}
    (opens : job.openBlock id defined scope list = .ok (steps, after)) : steps.returned = [] := by
  induction list generalizing scope steps with
  | nil =>
      cases opens
      rfl
  | cons first rest ih =>
      obtain ⟨name, binding⟩ := first
      unfold openBlock at opens
      split at opens
      · exact ih opens
      · cases binding with
        | mutable =>
            obtain ⟨type, -, opens⟩ := bind_eq_ok_iff.1 opens
            obtain ⟨⟨more, last⟩, opened, same⟩ := bind_eq_ok_iff.1 opens
            cases same
            rw [Script.returned_bindCell]
            exact ih opened
        | const => cases opens

theorem returned_introduceEntry {list : List (String × Binding)}
    (introduces : job.introduceEntry scope list = .ok (steps, after)) : steps.returned = [] := by
  induction list generalizing scope steps with
  | nil =>
      cases introduces
      rfl
  | cons first rest ih =>
      obtain ⟨name, binding⟩ := first
      unfold introduceEntry at introduces
      split at introduces
      · obtain ⟨⟨more, last⟩, introduced, same⟩ := bind_eq_ok_iff.1 introduces
        cases same
        rw [returned_introduce]
        exact ih introduced
      · obtain ⟨type, -, introduces⟩ := bind_eq_ok_iff.1 introduces
        obtain ⟨⟨more, last⟩, introduced, same⟩ := bind_eq_ok_iff.1 introduces
        cases same
        rw [Script.returned_bindCell]
        exact ih introduced
      · exact ih introduces

/-- A block of the graph returns what its last instruction hands back. -/
theorem yields_returned_block {graph : BlockGraph}
    (built : BlockGraph.ofBlocks job.method.entry job.method.blocks = .ok graph)
    (known : id ∈ graph.ids) :
    Lower.Yields (job.block scope id) fun lowered => lowered.scope.loop = scope.loop ∧
      ∀ value ∈ lowered.steps.returned, ∃ block source, graph.block? id = some block ∧
        block.last? = some source ∧ job.ReturnOf source value := by
  obtain ⟨listed, found⟩ := BlockGraph.mem_ids_iff.1 known
  obtain ⟨-, isListed, ends⟩ := BlockGraph.block_of_ofBlocks built found
  unfold block
  split
  · exact .reject
  · next block isBlock =>
    cases isListed.symm.trans isBlock
    refine Lower.Yields.check.bind fun opened opens => yields_returned_instrs.bind
      fun body inside => .pure ⟨inside.1.trans (calls_openBlock opens).1, fun value member => ?_⟩
    rw [Script.returned_append, returned_openBlock opens, List.nil_append] at member
    obtain ⟨source, among, returns⟩ := inside.2 value member
    refine ⟨listed, source, found, ?_, returns⟩
    -- Only the last instruction of a block has no successors.
    rcases List.eq_nil_or_concat listed.instrs with none | ⟨front, last, list⟩
    · rw [none] at among
      cases among
    · rw [list, List.concat_eq_append] at among ends
      rw [List.dropLast_concat] at ends
      rcases List.mem_append.1 among with earlier | atEnd
      · have one := ends source earlier
        rw [returns.fanOut] at one
        cases one
      · obtain rfl := List.mem_singleton.1 atEnd
        rw [Block.last?, list, List.concat_eq_append, List.getLast?_concat]

end Job

/-! ## Regions -/

/-- The function of a region hands back a value: that of the method does, and that of a loop if a
block of the loop ends in a return. -/
def BlockGraph.IsValued (graph : BlockGraph) : Option Loop → Prop
  | none => True
  | some loop => ∃ id ∈ loop.body, graph.isReturning id = true

/-- The function of a region has a frame if the region is the body of a loop, and the frame says
whether it hands back a value. -/
def BlockGraph.FramedBy (graph : BlockGraph) : Option Loop → Option LoopFrame → Prop
  | none, none => True
  | some loop, some frame => frame.yieldsValue = true ↔ graph.IsValued (some loop)
  | none, some _ | some _, none => False

section Regions

variable {graph : BlockGraph} {forest : LoopForest} {around : Option Loop} {loop : Loop}

/-- A region with a loop that hands back a value hands back one as well. -/
theorem BlockGraph.IsValued.outer (isOf : forest.IsOf graph) (owns : forest.Owns around)
    (nested : loop ∈ forest.inside around) (valued : graph.IsValued (some loop)) :
    graph.IsValued around := by
  cases around with
  | none => trivial
  | some outer =>
      obtain ⟨id, holds, returning⟩ := valued
      exact ⟨id, (isOf.nested_body (owns outer rfl) (Loop.mem_flattenAll_of_mem nested) holds).1,
        returning⟩

/-- A region with a block that returns hands back a value. -/
theorem BlockGraph.isValued_of_innermost? (isOf : forest.IsOf graph) {id : BlockId}
    (direct : forest.innermost? id = around) (returning : graph.isReturning id = true) :
    graph.IsValued around := by
  cases around with
  | none => trivial
  | some loop => exact ⟨id, (isOf.innermost?_eq_some_iff.1 direct).2.1, returning⟩

/-- The record of a loop node lists a return if the loop hands back a value. -/
theorem isValued_iff (checked : graph.Checked) {label : Label} {body : Tree}
    (part : IsPartOf graph forest around (.loop label loop.entries body))
    (whole : ∀ id, id ∈ body.blocks ↔ id ∈ loop.body) :
    (!label.jumps.returns.isEmpty) = true ↔ graph.IsValued (some loop) := by
  have sums : Sums graph forest around (Leaves graph forest loop.body.toList) label.jumps := by
    refine part.ways.congr fun coord _ => ?_
    simp only [Leaves, Tree.blocks_loop, whole, SortedSet.mem_toList]
  exact returns_isEmpty_iff checked sums

end Regions

namespace Job

open BlockGraph (IsValued FramedBy)

/-- What the function of a region hands back if it hands back a value: what a return instruction of
the region does, the first value of the method's return type, or what the function of a loop in the
region has handed back. -/
inductive HandsBack (job : Job) (graph : BlockGraph) (forest : LoopForest) (around : Option Loop) :
    Target.Expr → Prop
  | instr {id : BlockId} {block : Block} {source : Instr} {value : Target.Expr}
      (direct : forest.innermost? id = around) (isBlock : graph.block? id = some block)
      (isLast : block.last? = some source) (returns : job.ReturnOf source value) :
      HandsBack job graph forest around value
  | default : HandsBack job graph forest around job.method.returnType.default
  | result {loop : Loop} (nested : loop ∈ forest.inside around)
      (valued : graph.IsValued (some loop)) :
      HandsBack job graph forest around (.var ("__loop_res_" ++ loop.head.text))

/-- What the function of a region may return: its own call, if the region is the body of a loop,
and otherwise a value if it hands back one, and nothing if not. -/
inductive MayReturn (job : Job) (graph : BlockGraph) (forest : LoopForest) (around : Option Loop)
    (frame : Option LoopFrame) : Target.Expr → Prop
  | again {own : LoopFrame} (isOwn : frame = some own) :
      MayReturn job graph forest around frame own.again
  | value {value : Target.Expr} (valued : graph.IsValued around)
      (handsBack : job.HandsBack graph forest around value) :
      MayReturn job graph forest around frame value
  | nothing (silent : ¬ graph.IsValued around) : MayReturn job graph forest around frame .unit

section Trees

variable {job : Job} {graph : BlockGraph} {forest : LoopForest} {around : Option Loop}
  {scope : Scope} {steps : Script} {value : Target.Expr}

theorem mayReturn_emptyReturn (framed : FramedBy graph around scope.loop) :
    job.MayReturn graph forest around scope.loop (job.emptyReturn scope) := by
  unfold emptyReturn
  cases around with
  | none =>
      cases isLoop : scope.loop with
      | none => exact .value trivial .default
      | some frame =>
          rw [isLoop] at framed
          exact framed.elim
  | some loop =>
      cases isLoop : scope.loop with
      | none =>
          rw [isLoop] at framed
          exact framed.elim
      | some frame =>
          rw [isLoop] at framed
          dsimp only
          split
          · next yields => exact .value (framed.1 yields) .default
          · next silent => exact .nothing fun valued => silent (framed.2 valued)

theorem yields_mayReturn_jump (forest : LoopForest) (framed : FramedBy graph around scope.loop)
    {coord : Coord} :
    Lower.Yields (job.jump scope coord) fun steps =>
      ∀ value ∈ steps.returned, job.MayReturn graph forest around scope.loop value := by
  unfold jump
  refine yields_returned_record.bind fun recording none => ?_
  split
  · split
    · next frame isLoop =>
      refine .pure ?_
      rw [Script.returned_append, none]
      exact List.forall_mem_singleton.2 (.again isLoop)
    · exact .reject
  · split
    · refine .pure ?_
      rw [Script.returned_append, none]
      exact List.forall_mem_singleton.2 (mayReturn_emptyReturn framed)
    · refine .pure ?_
      rw [none]
      exact List.forall_mem_nil _

theorem yields_returned_returnIf {coords : CoordSet} {result : Target.Expr} :
    Lower.Yields (returnIf coords result) fun steps =>
      ∀ value ∈ steps.returned, value = result ∧ ∃ coord, coord ∈ coords := by
  unfold returnIf
  split
  · exact .pure (List.forall_mem_nil _)
  · next some =>
    refine Lower.Yields.skip fun test => .pure ?_
    rw [Script.returned_onlyIf]
    refine List.forall_mem_singleton.2 ⟨rfl, ?_⟩
    simpa [SortedSet.isEmpty_iff] using some

theorem yields_returned_recurseAfter {label : Label} :
    Lower.Yields (job.recurseAfter scope label) fun steps =>
      ∀ value ∈ steps.returned, ∃ own, scope.loop = some own ∧ value = own.again := by
  unfold recurseAfter
  dsimp only
  split
  · exact .pure (List.forall_mem_nil _)
  · split
    · next own isLoop =>
      exact yields_returned_returnIf.imp fun steps found value member =>
        ⟨own, isLoop, (found value member).1⟩
    · exact .reject

/-- Behind a loop, the value of the loop is handed on only if there is one. -/
theorem yields_mayReturn_returnAfter (isOf : forest.IsOf graph) (owns : forest.Owns around)
    (framed : FramedBy graph around scope.loop) {label : Label} {loop : Loop}
    (nested : loop ∈ forest.inside around) (head : label.head = loop.head)
    (returns : (∃ coord, coord ∈ label.jumps.returns) → graph.IsValued (some loop)) :
    Lower.Yields (job.returnAfter scope label) fun steps =>
      ∀ value ∈ steps.returned, job.MayReturn graph forest around scope.loop value := by
  refine yields_returned_returnIf.bind fun returning handed =>
    yields_returned_returnIf.bind fun leaving left => .pure fun value member => ?_
  rw [Script.returned_append, List.mem_append] at member
  rcases member with member | member
  · obtain ⟨rfl, coord, among⟩ := handed value member
    have valued := returns ⟨coord, by simpa using (SortedSet.mem_filter.1 among).2⟩
    rw [loopResult, head]
    exact .value (valued.outer isOf owns nested) (.result nested valued)
  · exact (left value member).1 ▸ mayReturn_emptyReturn framed

variable (built : BlockGraph.ofBlocks job.method.entry job.method.blocks = .ok graph)
  (isOf : forest.IsOf graph)

include built isOf

theorem yields_mayReturn_block {id : BlockId}
    (known : id ∈ graph.ids) (direct : forest.innermost? id = around) :
    Lower.Yields (job.block scope id) fun lowered => lowered.scope.loop = scope.loop ∧
      ∀ value ∈ lowered.steps.returned, job.MayReturn graph forest around scope.loop value := by
  refine (yields_returned_block built known).imp fun lowered found =>
    ⟨found.1, fun value member => ?_⟩
  obtain ⟨block, source, isBlock, isLast, returns⟩ := found.2 value member
  have returning : graph.isReturning id = true := by
    rw [BlockGraph.isReturning, isBlock, Option.any_some, Block.isReturning, isLast,
      Option.any_some, returns.isReturn]
  exact .value (BlockGraph.isValued_of_innermost? isOf direct returning)
    (.instr direct isBlock isLast returns)

omit built isOf in
theorem yields_mayReturn_arm (framed : FramedBy graph around scope.loop) {arm : Arm}
    (nested : ∀ tree, arm = .nested tree → Lower.Yields (job.tree scope tree) fun answer =>
      answer.2.loop = scope.loop ∧
        ∀ value ∈ answer.1.returned, job.MayReturn graph forest around scope.loop value) :
    Lower.Yields (job.arm scope arm) fun stmts =>
      ∀ value ∈ Stmt.collectAll Stmt.ownReturns stmts,
        job.MayReturn graph forest around scope.loop value := by
  cases arm with
  | jump coord jumps =>
      rw [Job.arm]
      refine (yields_mayReturn_jump forest framed).bind fun leaving found => .pure ?_
      rwa [Script.returned_stmts]
  | nested tree =>
      rw [Job.arm]
      refine (nested tree rfl).bind fun answer found => .pure ?_
      rw [Script.returned_stmts]
      exact found.2

omit built isOf in
theorem yields_mayReturn_elems {elems : List Tree} (framed : FramedBy graph around scope.loop)
    (trees : ∀ tree ∈ elems, ∀ scope, FramedBy graph around scope.loop →
      Lower.Yields (job.tree scope tree) fun answer => answer.2.loop = scope.loop ∧
        ∀ value ∈ answer.1.returned, job.MayReturn graph forest around scope.loop value) :
    Lower.Yields (job.elems scope elems) fun answer => answer.2.loop = scope.loop ∧
      ∀ value ∈ answer.1.returned, job.MayReturn graph forest around scope.loop value := by
  induction elems generalizing scope with
  | nil => exact .pure ⟨rfl, List.forall_mem_nil _⟩
  | cons tree rest ih =>
      obtain ⟨here, others⟩ := List.forall_mem_cons.1 trees
      unfold Job.elems
      split
      · refine Lower.Yields.skip fun test => (here scope framed).bind fun answer own =>
          (ih framed others).bind fun last behind => .pure ⟨behind.1, ?_⟩
        rw [Script.returned_append]
        refine List.forall_mem_append.2 ⟨?_, behind.2⟩
        split
        · exact List.forall_mem_nil _
        · rw [Script.returned_onlyIf, Script.returned_stmts]
          exact own.2
      · refine (here scope framed).bind fun answer own =>
          (ih (own.1 ▸ framed) others).bind fun last behind => .pure ⟨behind.1.trans own.1, ?_⟩
        rw [Script.returned_append]
        exact List.forall_mem_append.2 ⟨own.2, own.1 ▸ behind.2⟩

omit built isOf in
theorem yields_mayReturn_alternatives {merge : Label} {alternatives : List Tree}
    (trees : ∀ tree ∈ alternatives, Lower.Yields (job.tree scope tree) fun answer =>
      answer.2.loop = scope.loop ∧
        ∀ value ∈ answer.1.returned, job.MayReturn graph forest around scope.loop value) :
    Lower.Yields (job.alternatives scope merge alternatives) fun stmts =>
      ∀ value ∈ Stmt.collectAll Stmt.ownReturns stmts,
        job.MayReturn graph forest around scope.loop value := by
  induction alternatives with
  | nil => exact .pure (List.forall_mem_nil _)
  | cons tree rest ih =>
      obtain ⟨here, others⟩ := List.forall_mem_cons.1 trees
      unfold alternatives
      refine Lower.Yields.skip fun test => here.bind fun answer own =>
        (ih others).bind fun stmts behind => .pure ?_
      rw [Stmt.collectAll_cons, Stmt.collectAll_nil, List.append_nil, Stmt.collect,
        Script.returned_stmts]
      exact List.forall_mem_append.2 ⟨own.2, behind⟩

/-- The code of a marked tree returns what the function of its region may return. -/
theorem yields_mayReturn_tree {recorded : CoordSet} {tree : Tree}
    (fits : GotoFree.Fits graph forest (Noted graph forest recorded) around tree)
    (owns : forest.Owns around) :
    ∀ scope, FramedBy graph around scope.loop →
      Lower.Yields (job.tree scope tree) fun answer => answer.2.loop = scope.loop ∧
        ∀ value ∈ answer.1.returned, job.MayReturn graph forest around scope.loop value := by
  have checked := BlockGraph.checked_ofBlocks built
  have known {around : Option Loop} {tree : Tree} (part : IsPartOf graph forest around tree)
      (owns : forest.Owns around) {id : BlockId} (own : id ∈ tree.blocks) : id ∈ graph.ids :=
    isOf.blocksOf_known owns (part.inside id own)
  induction fits with
  | @jump _ label part noted direct straight leaves =>
      intro scope framed
      rw [Job.tree]
      refine (yields_mayReturn_block built isOf (known part owns (by simp)) direct).bind
        fun body inside => ?_
      split
      · exact .pure inside
      · refine (yields_mayReturn_jump forest (inside.1 ▸ framed)).bind fun leaving found =>
          .pure ⟨inside.1, ?_⟩
        rw [Script.returned_append]
        exact List.forall_mem_append.2 ⟨inside.2, inside.1 ▸ found⟩
  | @conditional _ label taken notTaken _ _ part noted direct branching edges takenArm notTakenArm
      takenLeaves notTakenLeaves takenFits notTakenFits takenIh notTakenIh =>
      intro scope framed
      rw [Job.tree]
      refine (yields_mayReturn_block built isOf (known part owns (by simp)) direct).bind
        fun body inside => ?_
      have framedInside : FramedBy graph _ body.scope.loop := inside.1 ▸ framed
      split
      · exact .reject
      · refine (yields_mayReturn_arm framedInside fun tree arm =>
          takenIh tree arm owns _ framedInside).bind fun thenBranch inThen =>
            (yields_mayReturn_arm framedInside fun tree arm =>
              notTakenIh tree arm owns _ framedInside).bind fun elseBranch inElse =>
                .pure ⟨inside.1, ?_⟩
        rw [Script.returned_append, Script.returned_stmt, Stmt.collect]
        refine List.forall_mem_append.2 ⟨inside.2, ?_⟩
        rw [Script.returned_nil, List.append_nil]
        exact inside.1 ▸ List.forall_mem_append.2 ⟨inThen, inElse⟩
  | sequence part noted chain flat fits ih =>
      intro scope framed
      rw [Job.tree]
      exact yields_mayReturn_elems framed fun tree member => ih tree member owns
  | @loop _ label body loop part noted nested head heads whole fits ih =>
      intro scope framed
      rw [Job.tree]
      refine Lower.Yields.skip fun inner => Lower.Yields.skip fun _ =>
        yields_returned_recurseAfter.bind fun recursing recurses =>
          (yields_mayReturn_returnAfter isOf owns framed nested head ?_).bind
            fun returning handed => .pure ⟨rfl, ?_⟩
      · rintro ⟨coord, among⟩
        refine (isValued_iff checked part whole).1 ?_
        rw [Bool.not_eq_true', ← Bool.not_eq_true, SortedSet.isEmpty_iff]
        exact fun none => none coord among
      · rw [Script.returned_append, Script.returned_append]
        refine List.forall_mem_append.2 ⟨List.forall_mem_append.2 ⟨?_, fun value member => ?_⟩,
          handed⟩
        · unfold runLoop
          split <;> exact List.forall_mem_nil _
        · obtain ⟨own, isOwn, rfl⟩ := recurses value member
          exact .again isOwn
  | merge part noted heads several isEntry incoming_iff leaves fits ih =>
      intro scope framed
      rw [Job.tree]
      refine (yields_mayReturn_alternatives fun tree member =>
        ih tree member owns scope framed).bind fun stmts found => .pure ⟨rfl, ?_⟩
      rwa [Script.returned_ofStmts]

end Trees

end Job

end GotoFree
