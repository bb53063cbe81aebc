import GotoFree.Proofs.CallFree
import GotoFree.Proofs.Reached

/-!
# The arguments of calls

A call in the code of a method goes to a function that is made for the code, to the function of the
loop around it, or to that of an implementation of one of the method's call sites (`Job.Goes`). The
first two are called with as many arguments as they take. The function of an implementation takes a
receiver if the implementation is not static, and is passed one if the call is not static. These
agree for what is found from a class upwards, but nothing checks them for what is found by name and
arity alone (`Call.Misses`). That is the only way in which a call may not fit its function
(`Program.lower_calls`).
-/

namespace GotoFree

open Target (Script Stmt)

/-- The number of arguments that a call passes on: those that its method takes and, unless the call
is static, the receiver. -/
def Call.passed (site : Call) : Nat :=
  site.callee.arity.toNat + if site.kind = .static then 0 else 1

namespace Method

variable {method : Method}

/-- Every call in a method has as many arguments as the method that it names takes. -/
def IsSaturated (method : Method) : Prop :=
  ∀ block ∈ method.blocks, ∀ site, block.Calls site →
    site.args.length = site.callee.arity.toNat

/-- The calls of a saturated method pass as many arguments as the callee has. -/
theorem IsSaturated.length_args (saturated : method.IsSaturated) {site : Call}
    (isSite : method.Calls site) : site.args.length = site.callee.arity.toNat := by
  obtain ⟨id, block, -, found, calls⟩ := isSite
  exact saturated block (List.mem_of_find?_eq_some found) site calls

/-- Only the copy of an argument is taken away, and that is no call. -/
theorem site?_dropArgumentCopy {instr : Instr} : (dropArgumentCopy instr).site? = instr.site? := by
  unfold dropArgumentCopy
  split
  · split <;> rfl
  · rfl

/-- A saturated method is so without its argument vector. -/
theorem IsSaturated.withoutArguments (saturated : method.IsSaturated) :
    method.withoutArguments.IsSaturated := by
  have blocks : method.withoutArguments.blocks = method.blocks.map fun block =>
      { block with instrs := block.instrs.map dropArgumentCopy } := by
    unfold Method.withoutArguments
    dsimp only
    split <;> rfl
  intro block member site calls
  rw [blocks] at member
  obtain ⟨original, among, rfl⟩ := List.mem_map.1 member
  obtain ⟨_, inside, isSite⟩ := calls
  obtain ⟨instr, listed, rfl⟩ := List.mem_map.1 inside
  exact saturated original among site ⟨instr, listed, site?_dropArgumentCopy ▸ isSite⟩

end Method

/-- Every call in a program has as many arguments as the method that it names takes. -/
def Program.IsSaturated (program : Program) : Prop :=
  ∀ id method, program.method? id = some method → method.IsSaturated

/-- A saturated program is so after the argument vector of its entry is dropped. -/
theorem Program.IsSaturated.of_withoutArguments {program prepared : Program}
    (saturated : program.IsSaturated) (chosen : program.withoutArguments = .ok prepared) :
    prepared.IsSaturated := by
  intro id method isMethod
  obtain ⟨original, isOriginal, rfl | rfl⟩ := method_of_withoutArguments chosen isMethod
  · exact saturated id method isOriginal
  · exact (saturated id original isOriginal).withoutArguments

namespace Job

variable {job : Job} {scope middle after : Scope} {source : Instr} {site : Call} {later : Agenda}
  {number : Nat} {loop : Option LoopFrame} {call : String × Nat}
  {calls others : List (String × Nat)} {made more : List Target.Function}

/-- A call goes to the function of an implementation, for a call site of the method. -/
def Directs (job : Job) (later : Agenda) (call : String × Nat) : Prop :=
  ∃ site callee, job.method.Calls site ∧ callee ∈ job.setting.program.implementations site ∧
    later.nameOf? callee = some call.1 ∧ call.2 = site.passed

/-- What a call in the code of a method goes to: the function of an implementation, that of the loop
around, or one that is made for the code. -/
def Goes (job : Job) (later : Agenda) (loop : Option LoopFrame) (made : List Target.Function)
    (call : String × Nat) : Prop :=
  job.Directs later call ∨ (∃ frame, loop = some frame ∧ call = frame.heading) ∨
    call ∈ made.map Target.Function.heading

/-- A call goes on to go where it does when more functions are made. -/
theorem Goes.mono (goes : job.Goes later loop made call) (subset : made ⊆ more) :
    job.Goes later loop more call := by
  obtain directs | again | member := goes
  · exact .inl directs
  · exact .inr (.inl again)
  · exact .inr (.inr (List.map_subset _ subset member))

/-- It is known where the calls in code go to, and those in the functions that are made for it. -/
structure Calling (job : Job) (later : Agenda) (loop : Option LoopFrame)
    (calls : List (String × Nat)) (made : List Target.Function) : Prop where
  code : ∀ call ∈ calls, job.Goes later loop made call
  functions : ∀ function ∈ made, ∀ call ∈ function.calls, job.Goes later loop made call

namespace Calling

theorem nil : job.Calling later loop [] [] := ⟨nofun, nofun⟩

/-- Code that only runs the loop around it again. -/
theorem again (only : ∀ call ∈ calls, ∃ frame, loop = some frame ∧ call = frame.heading) :
    job.Calling later loop calls [] :=
  ⟨fun call member => .inr (.inl (only call member)), nofun⟩

/-- Fewer calls go where more of them do. -/
theorem subset (calling : job.Calling later loop calls made) (fewer : others ⊆ calls) :
    job.Calling later loop others made :=
  ⟨fun call member => calling.code call (fewer member), calling.functions⟩

/-- The calls of code in a row go where those of its parts do. -/
theorem append (first : job.Calling later loop calls made)
    (second : job.Calling later loop others more) :
    job.Calling later loop (calls ++ others) (made ++ more) := by
  constructor
  · intro call member
    rcases List.mem_append.1 member with member | member
    · exact (first.code call member).mono (List.subset_append_left _ _)
    · exact (second.code call member).mono (List.subset_append_right _ _)
  · intro function member call called
    rcases List.mem_append.1 member with member | member
    · exact (first.functions function member call called).mono (List.subset_append_left _ _)
    · exact (second.functions function member call called).mono (List.subset_append_right _ _)

/-- The function of a loop is made of the code inside, and is called from outside. -/
theorem snoc {frame : LoopFrame} {function : Target.Function}
    (inner : job.Calling later (some frame) function.calls made)
    (same : function.heading = frame.heading) :
    job.Calling later loop [frame.heading] (made ++ [function]) := by
  have own : frame.heading ∈ (made ++ [function]).map Target.Function.heading := by
    simp [same]
  -- What runs the loop again from inside calls a function that is made now.
  have leaves {call : String × Nat} (goes : job.Goes later (some frame) made call) :
      job.Goes later loop (made ++ [function]) call := by
    obtain directs | ⟨_, ⟨⟩, rfl⟩ | member := goes
    · exact .inl directs
    · exact .inr (.inr own)
    · exact .inr (.inr (List.map_subset _ (List.subset_append_left _ _) member))
  constructor
  · intro call member
    rw [List.mem_singleton.1 member]
    exact .inr (.inr own)
  · intro other member call called
    rcases List.mem_append.1 member with member | member
    · exact leaves (inner.functions other member call called)
    · rw [List.mem_singleton.1 member] at called
      exact leaves (inner.code call called)

end Calling

/-! ## Calls -/

/-- A dispatch function has a parameter for the receiver besides those for the arguments. -/
@[simp] theorem length_dispatchParams :
    (dispatchParams site).length = site.callee.arity.toNat + 1 := by
  simp [dispatchParams]

/-- A dispatch function is called with as many arguments as its call passes. -/
theorem heading_dispatcher {table : DispatchTable} {function : Target.Function}
    (isDispatcher : job.DispatcherOf later number site source table function) :
    function.heading = (function.name, site.callee.arity.toNat + 1) := by
  obtain ⟨width, arms, type, -, -, rfl⟩ := isDispatcher
  rw [Target.Function.heading, length_dispatchParams]

/-- A dispatch function passes on its own parameters. -/
theorem calls_dispatcher {table : DispatchTable} {function : Target.Function}
    (isDispatcher : job.DispatcherOf later number site source table function) :
    ∀ call ∈ function.calls, ∃ callee ∈ table.keys, later.nameOf? callee = some call.1 ∧
      call.2 = site.callee.arity.toNat + 1 := by
  obtain ⟨width, arms, type, -, areArms, rfl⟩ := isDispatcher
  obtain ⟨steps, tag⟩ := @ObjectModel.calls_read job.setting.model (tagHandle width)
    Target.Expr.calls_var
  intro call member
  rw [Target.Function.calls, Script.calls_stmts, Script.calls_append, steps, List.nil_append,
    Script.calls_ofStmts] at member
  have ending : Stmt.callsOfAll [Stmt.assertFalse, .ret (Ty.default type)] = [] := by
    simp [Stmt.calls]
  unfold SortedMap.keys
  generalize table.entries = entries at areArms ⊢
  induction areArms with
  | nil =>
      rw [List.nil_append, ending] at member
      cases member
  | cons isArm _ ih =>
      rw [List.cons_append, Stmt.callsOfAll_cons, List.mem_append] at member
      rcases member with member | member
      · obtain ⟨tags, test, name, -, isTest, named, rfl⟩ := isArm
        have none := Target.Expr.calls_anyOf? tag isTest
        have only : call = (name, site.callee.arity.toNat + 1) := by
          simpa [Stmt.onlyIf, Stmt.calls, none] using member
        rw [only]
        exact ⟨_, List.mem_cons_self, named, rfl⟩
      · obtain ⟨callee, known, same⟩ := ih member
        exact ⟨callee, List.mem_cons_of_mem _ known, same⟩

/-- A saturated call passes its receiver, if it has one, and its arguments. -/
theorem length_operandsOf {operands : List Operand}
    (isOperands : job.operandsOf site source = .ok operands)
    (saturated : site.args.length = site.callee.arity.toNat) : operands.length = site.passed := by
  unfold operandsOf at isOperands
  by_cases isStatic : site.kind = .static
  · rw [isStatic] at isOperands
    cases isOperands
    rw [Call.passed, if_pos isStatic, saturated, Nat.add_zero]
  · rw [Call.passed, if_neg isStatic]
    split at isOperands
    · contradiction
    · cases isOperands
      rw [List.length_cons, saturated]
    · cases isOperands

/-- The function that a call runs takes what is passed. -/
theorem gives_calling_call (saturated : job.method.IsSaturated)
    (isSite : job.method.Calls site) :
    Lower.Gives (·.Within job.setting.program later (some number)) (job.call scope site source)
      fun answer made => job.Calling later scope.loop (answer.elim [] Computed.calls) made := by
  refine gives_call.imp fun answer made found => ?_
  obtain ⟨rfl, rfl⟩ | ⟨function, temporaries, operands, args, isOperands, passed, rfl, serves⟩ :=
    found
  · exact .nil
  have none : ∀ arg ∈ args, arg.calls = [] := by
    intro arg member
    obtain ⟨entry, -, isArg⟩ := exists_of_mem_right passed member
    exact calls_pass isArg
  have count : args.length = site.passed := by
    rw [← passed.length_eq, List.length_zipIdx,
      length_operandsOf isOperands (saturated.length_args isSite)]
  rw [Option.elim_some, Computed.calls_call none, count]
  obtain ⟨rfl, callee, known, named, -⟩ |
    ⟨dispatcher, table, isVirtual, rfl, rfl, lists, isDispatcher⟩ := serves
  · refine ⟨fun call member => ?_, nofun⟩
    rw [List.mem_singleton.1 member]
    exact .inl ⟨site, callee, isSite, known, named, rfl⟩
  · have count : site.passed = site.callee.arity.toNat + 1 := by
      rw [Call.passed, if_neg (by simp [isVirtual])]
    constructor
    · intro call member
      rw [List.mem_singleton.1 member, count, ← heading_dispatcher isDispatcher]
      exact .inr (.inr (by simp))
    · intro function member call called
      rw [List.mem_singleton.1 member] at called
      obtain ⟨callee, known, named, same⟩ := calls_dispatcher isDispatcher call called
      exact .inl ⟨site, callee, isSite, (mem_keys_dispatchTable lists isVirtual).1 known, named,
        same.trans count.symm⟩

/-- The calls in an expression go to functions that take what is passed. -/
theorem gives_calling_expr (saturated : job.method.IsSaturated) {value : Expr}
    (sites : ∀ site, value.site? = some site → job.method.Calls site) :
    Lower.Gives (·.Within job.setting.program later (some number)) (job.expr scope source value)
      fun computed made => job.Calling later scope.loop computed.calls made := by
  have free {computed : Computed} (none : computed.calls = []) :
      job.Calling later scope.loop computed.calls [] := none ▸ .nil
  have pure {value : Target.Expr} (none : value.calls = []) :
      job.Calling later scope.loop (Computed.pure value).calls [] :=
    free (Computed.calls_pure.trans none)
  cases value with
  | use operand => exact .check_bind fun value found => .pure (pure (calls_operand found))
  | binary op left right =>
      refine .check_bind fun left isLeft => .check_bind fun right isRight => .pure (pure ?_)
      rw [Target.Expr.calls, calls_operand isLeft, calls_operand isRight, List.nil_append]
  | unary op operand =>
      refine .check_bind fun value found => .pure (pure ?_)
      rw [Target.Expr.calls, calls_operand found]
  | fieldRead base field possibleTypes =>
      refine Lower.Gives.imp (quiet_fieldValue.yields yields_calls_fieldValue) ?_
      rintro computed made ⟨rfl, none⟩
      exact free none
  | arrayRead base index =>
      refine .check_bind fun array isArray => .check_bind fun position isPosition => .pure (pure ?_)
      rw [Target.Expr.calls, calls_valueOf isArray, calls_operand isPosition, List.nil_append]
  | arrayLength base =>
      refine .check_bind fun array isArray => .pure (pure ?_)
      rw [Target.Expr.calls, calls_valueOf isArray]
  | new className => exact .check_bind fun value made => .pure (pure (calls_allocate made))
  | newArray type size =>
      refine .check_bind fun value found => .pure (pure ?_)
      rw [Target.Expr.calls, calls_operand found]
  | call site =>
      refine (gives_calling_call saturated (sites site rfl)).bind fun answer => ?_
      split
      · exact .pure fun made calling => by rwa [List.append_nil]
      · exact .reject
  | nondet => exact .pure (pure (by rw [Target.Expr.calls]))
  | cast operand type =>
      unfold expr
      dsimp only
      split
      · exact .check_bind fun value found => .pure (pure (calls_operand found))
      · exact .reject
  | unmodelled => exact .reject

/-! ## Instructions and blocks -/

/-- Code leads to a scope in the function of the same loop, and it is known where its calls go. -/
structure Proceeds (job : Job) (later : Agenda) (scope after : Scope)
    (calls : List (String × Nat)) (made : List Target.Function) : Prop where
  loop : after.loop = scope.loop
  calling : job.Calling later scope.loop calls made

theorem Proceeds.stay : job.Proceeds later scope scope [] [] := ⟨rfl, .nil⟩

/-- Code in a row proceeds as its parts do. -/
theorem Proceeds.append (first : job.Proceeds later scope middle calls made)
    (second : job.Proceeds later middle after others more) :
    job.Proceeds later scope after (calls ++ others) (made ++ more) :=
  ⟨second.loop.trans first.loop, first.calling.append (first.loop ▸ second.calling)⟩

theorem Proceeds.subset (proceeds : job.Proceeds later scope after calls made)
    (fewer : others ⊆ calls) : job.Proceeds later scope after others made :=
  ⟨proceeds.loop, proceeds.calling.subset fewer⟩

/-- The calls of an instruction go to functions that take what is passed. -/
theorem gives_proceeds_plainInstr (saturated : job.method.IsSaturated)
    (sites : ∀ site, source.site? = some site → job.method.Calls site) :
    Lower.Gives (·.Within job.setting.program later (some number)) (job.plainInstr scope source)
      fun answer made => job.Proceeds later scope answer.2 answer.1.calls made := by
  cases source with
  | assign target value =>
      refine (gives_calling_expr saturated sites).bind fun computed =>
        Lower.Answers.bind (quiet_assign.yields yields_calls_assign) fun answer => .pure ?_
      rintro ⟨loop, stored, none⟩ made calling
      rw [List.append_nil]
      refine ⟨loop, calling.subset fun call member => ?_⟩
      simp only [Script.calls_append, Script.calls_ofStmts, Stmt.callsOfAll_append, none,
        List.append_nil, List.mem_append] at member
      simp only [Computed.calls, List.mem_append]
      exact member.imp_left (Or.imp_right fun among => stored among)
  | call site =>
      refine (gives_calling_call saturated (sites site rfl)).bind fun answer => ?_
      split
      · refine .pure fun made calling => ⟨rfl, ?_⟩
        rw [List.append_nil]
        simpa [Computed.calls, Stmt.calls] using calling
      · refine .pure fun made calling => ⟨rfl, ?_⟩
        rw [List.append_nil]
        exact calling
  | nop unreachable =>
      cases unreachable with
      | true => exact .pure ⟨rfl, Calling.nil.subset (by simp)⟩
      | false => exact .pure .stay
  | throw | identity | branch | goto | ret => exact .reject
  | aliased left right =>
      refine .check_bind fun left isLeft => .check_bind fun right isRight => .pure ⟨rfl, ?_⟩
      refine Calling.nil.subset ?_
      simp [Stmt.calls, calls_followPath isLeft, calls_followPath isRight]

/-- The calls of an instruction in its block go to functions that take what is passed. -/
theorem gives_proceeds_instr (saturated : job.method.IsSaturated) {id : BlockId}
    (sites : ∀ site, source.site? = some site → job.method.Calls site) :
    Lower.Gives (·.Within job.setting.program later (some number)) (job.instr id scope source)
      fun lowered made => job.Proceeds later scope lowered.scope lowered.calls made := by
  have plain : Lower.Gives (·.Within job.setting.program later (some number))
      (do return Lowered.plain (← job.plainInstr scope source)) fun lowered made =>
        job.Proceeds later scope lowered.scope lowered.calls made :=
    (gives_proceeds_plainInstr saturated sites).bind fun answer => .pure fun made proceeds => by
      simpa [Lowered.plain, Lowered.calls] using proceeds
  cases source with
  | branch condition =>
      refine (gives_calling_expr saturated sites).bind fun computed => .pure fun made calling => ?_
      rw [List.append_nil]
      refine ⟨rfl, calling.subset fun call member => ?_⟩
      simp only [Lowered.calls, Script.calls_append, Script.calls_ofStmts, Option.elim_some,
        List.mem_append] at member
      simp only [Computed.calls, List.mem_append]
      tauto
  | goto => exact .pure .stay
  | ret value =>
      refine Lower.Answers.bind (quiet_ret.yields yields_calls_ret) fun steps => .pure ?_
      exact fun none => ⟨rfl, Calling.nil.subset (by simp [Lowered.calls, none])⟩
  | identity target from_ =>
      unfold instr
      dsimp only
      split
      · exact .pure .stay
      · refine quiet_nameOfSource.skip fun param => .check_bind fun answer stored => .pure ?_
        obtain ⟨loop, calls⟩ := calls_store stored
        exact ⟨loop, Calling.nil.subset (by simp [Lowered.plain, Lowered.calls, calls])⟩
  | assign | call | nop | throw | aliased => exact plain

/-- The calls of the instructions of a block go to functions that take what is passed. -/
theorem gives_proceeds_instrs (saturated : job.method.IsSaturated) {id : BlockId} {index : Nat}
    {scope : Scope} {list : List Instr}
    (sites : ∀ instr ∈ list, ∀ site, instr.site? = some site → job.method.Calls site) :
    Lower.Gives (·.Within job.setting.program later none) (job.instrs id index scope list)
      fun lowered made => job.Proceeds later scope lowered.scope lowered.calls made := by
  induction list generalizing index scope with
  | nil => exact .pure .stay
  | cons first rest ih =>
      obtain ⟨ofFirst, ofRest⟩ := List.forall_mem_cons.1 sites
      refine Lower.gives_enter_bind (fun number => gives_proceeds_instr saturated ofFirst)
        fun head => (ih ofRest).bind fun tail => .pure ?_
      intro more others made _ here
      rw [List.append_nil]
      refine (here.append others).subset fun call member => ?_
      -- Of two conditions only the later one is kept.
      simp only [Lowered.calls, Script.calls_append, List.mem_append] at member ⊢
      cases branches : tail.condition with
      | none =>
          rw [branches] at member
          change (_ ∨ _) ∨ call ∈ head.condition.elim [] _ at member
          tauto
      | some test =>
          rw [branches] at member
          change (_ ∨ _) ∨ call ∈ (some test).elim [] _ at member
          tauto

/-- The calls of a block that is reached go to functions that take what is passed. -/
theorem gives_proceeds_block (saturated : job.method.IsSaturated) {id : BlockId}
    (reached : job.method.Reaches id) :
    Lower.Gives (·.Within job.setting.program later none) (job.block scope id)
      fun lowered made => job.Proceeds later scope lowered.scope lowered.calls made := by
  unfold block
  split
  · exact .reject
  · next block found =>
    have sites : ∀ instr ∈ block.instrs, ∀ site, instr.site? = some site →
        job.method.Calls site := fun instr member site isSite =>
      ⟨id, block, reached, found, instr, member, isSite⟩
    refine .check_bind fun opened opens => (gives_proceeds_instrs saturated sites).bind fun body =>
      .pure fun made proceeds => ?_
    obtain ⟨loop, none⟩ := calls_openBlock opens
    rw [List.append_nil]
    have opening : job.Proceeds later scope opened.2 [] [] := ⟨loop, .nil⟩
    simpa [Lowered.calls, none] using opening.append proceeds

/-! ## Trees -/

/-- A jump calls the function of the loop around it only. -/
theorem gives_proceeds_jump {coord : Coord} :
    Lower.Gives (·.Within job.setting.program later none) (job.jump scope coord)
      fun steps made => job.Proceeds later scope scope steps.calls made := by
  refine Lower.Gives.imp (quiet_jump.yields yields_calls_jump) ?_
  rintro steps made ⟨rfl, only⟩
  exact ⟨rfl, .again only⟩

/-- The function of a loop has the calls of the code inside, and is called once from outside. -/
theorem gives_proceeds_loop {label : Label} {entries : SortedSet BlockId} {body : Tree}
    (gives : Lower.Gives (·.Within job.setting.program later none)
      (job.tree (scope.insideLoop (job.loopFrame scope label)) body)
        fun answer made => job.Proceeds later (scope.insideLoop (job.loopFrame scope label))
          answer.2 answer.1.calls made) :
    Lower.Gives (·.Within job.setting.program later none)
      (job.tree scope (.loop label entries body))
      fun answer made => job.Proceeds later scope answer.2 answer.1.calls made := by
  rw [Job.tree]
  refine gives.bind fun inner => Lower.gives_addHelper.bind fun _ => ?_
  refine Lower.Answers.bind (quiet_recurseAfter.yields yields_calls_recurseAfter)
    fun recursing => ?_
  refine Lower.Answers.bind (quiet_returnAfter.yields yields_calls_returnAfter)
    fun returning => .pure ?_
  rintro none only _ rfl made proceeds
  rw [List.append_nil]
  refine ⟨rfl, ?_⟩
  have own : job.Calling later scope.loop [(job.loopFrame scope label).heading]
      (made ++ [⟨(job.loopFrame scope label).name, (job.loopFrame scope label).params,
        job.closed inner.2 inner.1⟩]) := by
    apply Calling.snoc
    · rw [Target.Function.calls, callsOfAll_closed]
      exact proceeds.calling
    · rfl
  have after := own.append (Calling.again only)
  rw [List.append_nil] at after
  rwa [Script.calls_append, Script.calls_append, none, calls_runLoop, List.append_nil]

mutual

/-- It is known where the calls in the code of a tree go, and those in the functions made for it. -/
theorem gives_proceeds_tree (saturated : job.method.IsSaturated) {scope : Scope} {tree : Tree}
    (reached : ∀ id ∈ tree.blocks, job.method.Reaches id) :
    Lower.Gives (·.Within job.setting.program later none) (job.tree scope tree)
      fun answer made => job.Proceeds later scope answer.2 answer.1.calls made := by
  cases tree with
  | jump label coord =>
      rw [Tree.blocks_jump, List.forall_mem_singleton] at reached
      rw [Job.tree]
      refine (gives_proceeds_block saturated reached).bind fun body => ?_
      split
      · refine .pure fun made proceeds => ?_
        rw [List.append_nil]
        exact proceeds.subset (List.subset_append_left _ _)
      · refine gives_proceeds_jump.bind fun steps => .pure fun more jumps made proceeds => ?_
        rw [List.append_nil, Script.calls_append]
        exact (proceeds.subset (List.subset_append_left _ _)).append jumps
  | conditional label taken notTaken =>
      rw [Tree.blocks_conditional, List.forall_mem_cons, List.forall_mem_append] at reached
      obtain ⟨own, ofTaken, ofNotTaken⟩ := reached
      rw [Job.tree]
      refine (gives_proceeds_block saturated own).bind fun body => ?_
      split
      · exact .reject
      · next test isTest =>
        refine (gives_proceeds_arm saturated ofTaken).bind fun thenBranch =>
          (gives_proceeds_arm saturated ofNotTaken).bind fun elseBranch => .pure ?_
        intro madeElse inElse madeThen inThen made proceeds
        rw [List.append_nil]
        have all := proceeds.append (inThen.append inElse)
        simpa [Lowered.calls, isTest, Stmt.calls] using all
  | sequence label elems =>
      rw [Tree.blocks_sequence] at reached
      rw [Job.tree]
      exact gives_proceeds_elems saturated reached
  | loop label entries body =>
      rw [Tree.blocks_loop] at reached
      exact gives_proceeds_loop (gives_proceeds_tree saturated reached)
  | merge label alternatives incoming =>
      rw [Tree.blocks_merge] at reached
      rw [Job.tree]
      refine (gives_proceeds_alternatives saturated reached).bind fun stmts =>
        .pure fun made proceeds => ?_
      rw [List.append_nil, Script.calls_ofStmts]
      exact proceeds

/-- It is known where the calls in an arm go. -/
theorem gives_proceeds_arm (saturated : job.method.IsSaturated) {scope : Scope} {arm : Arm}
    (reached : ∀ id ∈ Tree.blocksOfArm arm, job.method.Reaches id) :
    Lower.Gives (·.Within job.setting.program later none) (job.arm scope arm)
      fun stmts made => job.Proceeds later scope scope (Stmt.callsOfAll stmts) made := by
  cases arm with
  | jump coord jumps =>
      rw [Job.arm]
      refine gives_proceeds_jump.bind fun steps => .pure fun made proceeds => ?_
      rw [List.append_nil, Script.calls_stmts]
      exact proceeds
  | nested tree =>
      rw [Job.arm]
      refine (gives_proceeds_tree saturated reached).bind fun answer =>
        .pure fun made proceeds => ?_
      rw [List.append_nil, Script.calls_stmts]
      exact ⟨rfl, proceeds.calling⟩

/-- It is known where the calls in the elements of a sequence go. -/
theorem gives_proceeds_elems (saturated : job.method.IsSaturated) {scope : Scope}
    {elems : List Tree}
    (reached : ∀ id ∈ elems.flatMap Tree.blocks, job.method.Reaches id) :
    Lower.Gives (·.Within job.setting.program later none) (job.elems scope elems)
      fun answer made => job.Proceeds later scope answer.2 answer.1.calls made := by
  cases elems with
  | nil => exact .pure .stay
  | cons tree rest =>
      rw [List.flatMap_cons, List.forall_mem_append] at reached
      obtain ⟨own, others⟩ := reached
      rw [Job.elems]
      split
      · refine Lower.Answers.bind (quiet_gate.yields yields_calls_gate) fun test =>
          (gives_proceeds_tree saturated own).bind fun answer =>
            (gives_proceeds_elems saturated others).bind fun last => .pure ?_
        intro more follows made inside none
        rw [List.append_nil, Script.calls_append]
        -- What an element with a gate binds ends with the element.
        have nested : job.Proceeds later scope scope answer.1.calls made := ⟨rfl, inside.calling⟩
        refine (nested.subset ?_).append follows
        split
        · exact List.nil_subset _
        · simp [Stmt.onlyIf, Stmt.calls, none]
      · refine (gives_proceeds_tree saturated own).bind fun answer =>
          (gives_proceeds_elems saturated others).bind fun last => .pure ?_
        intro more follows made proceeds
        rw [List.append_nil, Script.calls_append]
        exact proceeds.append follows

/-- It is known where the calls in the alternatives of a merge go. -/
theorem gives_proceeds_alternatives (saturated : job.method.IsSaturated) {scope : Scope}
    {merge : Label} {alternatives : List Tree}
    (reached : ∀ id ∈ alternatives.flatMap Tree.blocks, job.method.Reaches id) :
    Lower.Gives (·.Within job.setting.program later none)
      (job.alternatives scope merge alternatives)
      fun stmts made => job.Proceeds later scope scope (Stmt.callsOfAll stmts) made := by
  cases alternatives with
  | nil => exact .pure ⟨rfl, Calling.nil.subset (by simp)⟩
  | cons tree rest =>
      rw [List.flatMap_cons, List.forall_mem_append] at reached
      obtain ⟨own, others⟩ := reached
      rw [Job.alternatives]
      refine Lower.Answers.bind (quiet_alternativeTest.yields yields_calls_alternativeTest)
        fun test => (gives_proceeds_tree saturated own).bind fun answer =>
          (gives_proceeds_alternatives saturated others).bind fun last => .pure ?_
      intro more follows made inside none
      rw [List.append_nil]
      have nested : job.Proceeds later scope scope answer.1.calls made := ⟨rfl, inside.calling⟩
      simpa [Stmt.calls, none] using nested.append follows

end

end Job

/-! ## Methods -/

/-- It is known where the calls in the functions of a method go, and how its own one is called. -/
structure MethodCode.CallsIn (agenda : Agenda) (program : Program) (id : MethodId)
    (method : Method) (code : MethodCode) : Prop where
  named : agenda.nameOf? id = some code.name
  heading : (code.name, method.incomingNames.length) ∈
    code.functions.map Target.Function.heading
  goes : ∀ function ∈ code.functions, ∀ call ∈ function.calls,
    (∃ site callee, method.Calls site ∧ callee ∈ program.implementations site ∧
        agenda.nameOf? callee = some call.1 ∧ call.2 = site.passed) ∨
      call ∈ code.functions.map Target.Function.heading

/-- Where the calls of a method go is known later, too. -/
theorem MethodCode.CallsIn.mono {agenda later : Agenda} {program : Program} {id : MethodId}
    {method : Method} {code : MethodCode} (calls : code.CallsIn agenda program id method)
    (keeps : agenda.Keeps later) : code.CallsIn later program id method := by
  refine ⟨keeps.names id _ calls.named, calls.heading, fun function member call called => ?_⟩
  refine (calls.goes function member call called).imp_left ?_
  rintro ⟨site, callee, isSite, known, isNamed, count⟩
  exact ⟨site, callee, isSite, known, keeps.names callee _ isNamed, count⟩

/-- The calls of a saturated method go to functions that take what is passed. -/
theorem Lower.callsIn_method {setting : Setting} {id : MethodId} {method : Method}
    {progress after : Progress} {code : MethodCode}
    (isMethod : setting.program.method? id = some method) (saturated : method.IsSaturated)
    (made : Lower.method setting id method progress = .ok (code, after)) :
    progress.agenda.Leads setting.program after.agenda ∧
      code.CallsIn after.agenda setting.program id method := by
  obtain ⟨job, graph, forest, tree, entry, scope, steps, inside, begun, rfl, rfl, rfl, -, -, built,
    -, isMarked, introduces, leads, helpers, isNamed, lowered, functions⟩ :=
      method_cases isMethod made
  have reached : ∀ id ∈ tree.blocks, job.method.Reaches id := by
    intro id member
    obtain ⟨block, found⟩ := BlockGraph.mem_ids_iff.1 ((isMarked.whole id).1 member)
    exact ((Method.block?_eq_some_iff built).1 found).1
  have gives := @Job.gives_proceeds_tree job after.agenda saturated scope tree reached
  obtain ⟨within, more, isLast, -, calling⟩ := gives begun _ after lowered ⟨.refl _, nofun⟩
  obtain ⟨outside, opening⟩ := Job.calls_introduceEntry introduces
  rw [isLast, helpers, List.nil_append] at functions
  -- There is no loop around the code of a method, so its calls go elsewhere.
  have goes {call : String × Nat} (found : job.Goes after.agenda scope.loop more call) :
      (∃ site callee, job.method.Calls site ∧ callee ∈ job.setting.program.implementations site ∧
          after.agenda.nameOf? callee = some call.1 ∧ call.2 = site.passed) ∨
        call ∈ code.functions.map Target.Function.heading := by
    obtain directs | ⟨frame, isLoop, -⟩ | member := found
    · exact .inl directs
    · rw [outside] at isLoop
      cases isLoop
    · rw [functions, List.map_append]
      exact .inr (List.mem_append_left _ member)
  refine ⟨leads.trans within.leads, within.leads.names _ _ isNamed, ?_, ?_⟩
  · rw [functions, List.map_append]
    exact List.mem_append_right _ (List.mem_singleton_self _)
  · intro function member call called
    rw [functions, List.mem_append, List.mem_singleton] at member
    obtain member | rfl := member
    · exact goes (calling.functions function member call called)
    · rw [Target.Function.calls, Job.callsOfAll_closed, Script.calls_append, Script.calls_append,
        opening, List.append_nil, List.mem_append] at called
      rcases called with control | called
      · split at control
        · rw [Script.calls_cons, Script.calls_bindCell] at control
          simp at control
        · cases control
      · exact goes (calling.code call called)

/-! ## Programs -/

/-- A call is of another sort than a method that it may run: a static call of a method with a
receiver, or a special call of a static method. -/
def Call.Misses (site : Call) (target : Method) : Prop :=
  (site.kind = .static ∧ target.isStatic = false) ∨
    (site.kind = .special ∧ target.isStatic = true)

/-- A method that is reached makes a call that may run a method. -/
def Program.MayRun (program : Program) (site : Call) (target : Method) : Prop :=
  ∃ id method callee, program.Reached id ∧ program.method? id = some method ∧
    method.Calls site ∧ callee ∈ program.implementations site ∧
    program.method? callee = some target

/-- A method takes its receiver, if it has one, and its parameters. -/
theorem Method.length_incomingNames {method : Method} :
    method.incomingNames.length = method.params.length + if method.isStatic then 0 else 1 := by
  cases isStatic : method.isStatic <;> simp [incomingNames, incoming, isStatic]

/-- The function of an implementation takes what is passed to it, unless the call is of another
sort. -/
theorem Program.length_incomingNames_or_misses {program : Program} {site : Call}
    {callee : MethodId} {target : Method} (known : callee ∈ program.implementations site)
    (isTarget : program.method? callee = some target) :
    target.incomingNames.length = site.passed ∨ site.Misses target := by
  obtain ⟨_, isMethod, params⟩ := params_of_implementations known
  cases isTarget.symm.trans isMethod
  rw [Method.length_incomingNames, params, Call.passed]
  cases kind : site.kind with
  | static =>
      cases isStatic : target.isStatic with
      | true => exact .inl rfl
      | false => exact .inr (.inl ⟨kind, isStatic⟩)
  | special =>
      cases isStatic : target.isStatic with
      | true => exact .inr (.inr ⟨kind, isStatic⟩)
      | false => exact .inl rfl
  | virtual =>
      rw [implementations, kind] at known
      obtain ⟨className, -, found⟩ := List.mem_filterMap.1 known
      obtain ⟨_, isInstance, -, notStatic⟩ := instance_of_resolve found
      cases isTarget.symm.trans isInstance
      rw [notStatic]
      exact .inl rfl

/-- In a program whose calls have as many arguments as the methods that they name take, every call
in the lowered program names one of its functions, and so does the one that runs it. It passes as
many arguments as the function has parameters, but for one case: a call that is reached may run a
method of another sort. -/
theorem Program.lower_calls {program : Program} {model : ObjectModel} {entry : Option MethodId}
    {lowered : LoweredProgram} (lowers : program.lower model entry = .ok lowered)
    (saturated : program.IsSaturated) :
    ∃ prepared, ({ program with entry := entry.getD program.entry } : Program).withoutArguments =
        .ok prepared ∧
      (∃ name, lowered.program.entry = some name ∧
        (name, 0) ∈ lowered.program.functions.map Target.Function.heading) ∧
      ∀ call ∈ lowered.program.calls, ∃ function ∈ lowered.program.functions,
        function.name = call.1 ∧ (function.params.length = call.2 ∨
          ∃ site target, prepared.MayRun site target ∧ site.Misses target ∧
            function.params.length = target.incomingNames.length ∧ call.2 = site.passed) := by
  obtain ⟨prepared, layout, last, chosen, -, ran⟩ := lower_eq_ok_iff.1 lowers
  have full : prepared.IsSaturated :=
    @IsSaturated.of_withoutArguments { program with entry := entry.getD program.entry } prepared
      saturated chosen
  obtain ⟨ids, codes, sound, empty, good, functions, -⟩ :=
    @Lower.forall₂_program ⟨prepared, layout, model⟩
      (fun agenda id code => ∃ method, prepared.method? id = some method ∧
        code.CallsIn agenda prepared id method)
      (fun agenda later id code keeps ⟨method, isMethod, calls⟩ =>
        ⟨method, isMethod, calls.mono keeps⟩)
      (fun id method progress code after isMethod made =>
        have ⟨leads, calls⟩ := Lower.callsIn_method isMethod (full id method isMethod) made
        ⟨leads, method, isMethod, calls⟩)
      _ _ ran
  obtain ⟨isEntry, done, explored⟩ := Lower.explored_program ran
  have inside {code : MethodCode} (isCode : code ∈ codes) :
      code.functions ⊆ lowered.program.functions := by
    rw [functions]
    exact fun function member => List.mem_flatMap.2 ⟨code, isCode, member⟩
  -- Every method that has a name has a function of this name.
  have own {id : MethodId} {name : String} (named : last.agenda.nameOf? id = some name) :
      ∃ method, prepared.method? id = some method ∧
        (name, method.incomingNames.length) ∈
          lowered.program.functions.map Target.Function.heading := by
    have among := (sound.named_iff id).1 ⟨name, named⟩
    rw [empty, List.append_nil] at among
    obtain ⟨code, isCode, method, isMethod, calls⟩ := exists_of_mem_left good among
    cases named.symm.trans calls.named
    exact ⟨method, isMethod, List.map_subset _ (inside isCode) calls.heading⟩
  have exists_function {call : String × Nat}
      (member : call ∈ lowered.program.functions.map Target.Function.heading) :
      ∃ function ∈ lowered.program.functions,
        function.name = call.1 ∧ function.params.length = call.2 := by
    obtain ⟨function, among, rfl⟩ := List.mem_map.1 member
    exact ⟨function, among, rfl, rfl⟩
  obtain ⟨start, isStart, isStatic, none⟩ := entry_of_withoutArguments chosen
  obtain ⟨name, named⟩ := (sound.named_iff _).2 ((sound.seen_iff _).1 explored.entry_mem)
  have starts : (name, 0) ∈ lowered.program.functions.map Target.Function.heading := by
    obtain ⟨method, isMethod, heading⟩ := own named
    cases isStart.symm.trans isMethod
    rwa [Method.length_incomingNames, none, isStatic] at heading
  rw [named] at isEntry
  refine ⟨prepared, chosen, ⟨name, isEntry, starts⟩, fun call member => ?_⟩
  rcases List.mem_append.1 member with member | member
  · obtain ⟨function, among, called⟩ := List.mem_flatMap.1 member
    rw [functions] at among
    obtain ⟨code, isCode, isOwn⟩ := List.mem_flatMap.1 among
    obtain ⟨id, isId, method, isMethod, calls⟩ := exists_of_mem_right good isCode
    obtain ⟨site, callee, isSite, known, isNamed, count⟩ | heading :=
      calls.goes function isOwn call called
    · obtain ⟨target, isTarget, heading⟩ := own isNamed
      obtain ⟨found, isFound, same, length⟩ := exists_function heading
      refine ⟨found, isFound, same, ?_⟩
      rcases length_incomingNames_or_misses known isTarget with fits | misses
      · exact .inl (by rw [length, fits, count])
      · have reached : prepared.Reached id := by
          apply explored.reached
          rw [sound.seen_iff, empty, List.append_nil]
          exact isId
        exact .inr ⟨site, target, ⟨id, method, callee, reached, isMethod, isSite, known, isTarget⟩,
          misses, length, count⟩
    · obtain ⟨found, isFound, same, length⟩ :=
        exists_function (List.map_subset _ (inside isCode) heading)
      exact ⟨found, isFound, same, .inl length⟩
  · rw [isEntry] at member
    obtain rfl := List.mem_singleton.1 member
    obtain ⟨found, isFound, same, length⟩ := exists_function starts
    exact ⟨found, isFound, same, .inl length⟩

/-- A program with a call of one sort and a method that is static or not. -/
def callingProgram (kind : CallKind) (isStatic : Bool) : Program where
  classes := []
  methods := .ofList [
    (.plain "A" "main", {
      className := "A"
      name := "main"
      isStatic := true
      params := []
      returnType := .void
      locals := [⟨"r", .ref "A"⟩]
      entry := ⟨0⟩
      blocks := [⟨⟨0⟩, [.call ⟨kind, ⟨"A", "f", 0⟩, some "r", [], .singleton "A"⟩, .ret none], []⟩]
      plan := none }),
    (.plain "A" "f", {
      className := "A"
      name := "f"
      isStatic := isStatic
      params := []
      returnType := .void
      locals := []
      entry := ⟨0⟩
      blocks := [⟨⟨0⟩, [.ret none], []⟩]
      plan := none })]
  entry := .plain "A" "main"

theorem isSaturated_callingProgram {kind : CallKind} {isStatic : Bool} :
    (callingProgram kind isStatic).IsSaturated := by
  intro id method isMethod
  have distinct : [MethodId.plain "A" "main", MethodId.plain "A" "f"].Nodup := by decide
  have listed := (SortedMap.get?_ofList (by exact distinct)).1 isMethod
  rcases List.mem_cons.1 listed with same | member
  · cases same
    rintro block member site ⟨instr, among, isSite⟩
    obtain rfl := List.mem_singleton.1 member
    rcases List.mem_cons.1 among with rfl | among
    · cases isSite
      rfl
    · rw [List.mem_singleton.1 among] at isSite
      cases isSite
  · cases List.mem_singleton.1 member
    rintro block member site ⟨instr, among, isSite⟩
    obtain rfl := List.mem_singleton.1 member
    rw [List.mem_singleton.1 among] at isSite
    cases isSite

/-- The calls of a program and the headings of its functions. -/
def LoweredProgram.callsAndHeadings (lowered : LoweredProgram) :
    List (String × Nat) × List (String × Nat) :=
  (lowered.program.calls, lowered.program.functions.map Target.Function.heading)

/-- A virtual call runs a dispatch function with the object and its tag. -/
theorem Program.lower_calls_virtual : ∃ lowered,
    (callingProgram .virtual false).lower .mutable none = .ok lowered ∧
      ∃ name, lowered.program.entry = some name ∧
        (name, 0) ∈ lowered.program.functions.map Target.Function.heading := by
  have seen : ((callingProgram .virtual false).lower .mutable none).toOption.map
      LoweredProgram.callsAndHeadings =
        some ([("A_f", 1), ("A_main", 0)], [("A_main", 0), ("A_f", 1)]) := by decide +kernel
  obtain ⟨lowered, lowers, -⟩ := exists_lowered seen
  obtain ⟨prepared, -, starts, -⟩ := lower_calls lowers isSaturated_callingProgram
  exact ⟨lowered, lowers, starts⟩

/-- A static call of a method with a receiver passes one argument too few, and a special call of a
static method one too many. -/
theorem Program.not_fits_callingProgram :
    (∃ lowered, (callingProgram .static false).lower .mutable none = .ok lowered ∧
      (callingProgram .static false).IsSaturated ∧
      ("A_f", 0) ∈ lowered.program.calls ∧
      ∀ function ∈ lowered.program.functions, function.heading ≠ ("A_f", 0)) ∧
    ∃ lowered, (callingProgram .special true).lower .mutable none = .ok lowered ∧
      (callingProgram .special true).IsSaturated ∧
      ("A_f", 1) ∈ lowered.program.calls ∧
      ∀ function ∈ lowered.program.functions, function.heading ≠ ("A_f", 1) := by
  have tooFew : ((callingProgram .static false).lower .mutable none).toOption.map
      LoweredProgram.callsAndHeadings =
        some ([("A_f", 0), ("A_main", 0)], [("A_main", 0), ("A_f", 1)]) := by decide +kernel
  have tooMany : ((callingProgram .special true).lower .mutable none).toOption.map
      LoweredProgram.callsAndHeadings =
        some ([("A_f", 1), ("A_main", 0)], [("A_main", 0), ("A_f", 0)]) := by decide +kernel
  have unfit {lowered : LoweredProgram} {calls headings : List (String × Nat)}
      {call : String × Nat} (same : lowered.callsAndHeadings = (calls, headings))
      (called : call ∈ calls) (absent : call ∉ headings) : call ∈ lowered.program.calls ∧
        ∀ function ∈ lowered.program.functions, function.heading ≠ call := by
    obtain ⟨rfl, rfl⟩ := Prod.mk.inj same
    exact ⟨called, fun function member heading =>
      absent (List.mem_map.2 ⟨function, member, heading⟩)⟩
  obtain ⟨few, lowersFew, sameFew⟩ := exists_lowered tooFew
  obtain ⟨many, lowersMany, sameMany⟩ := exists_lowered tooMany
  exact ⟨⟨few, lowersFew, isSaturated_callingProgram, unfit sameFew (by decide) (by decide)⟩,
    ⟨many, lowersMany, isSaturated_callingProgram, unfit sameMany (by decide) (by decide)⟩⟩

end GotoFree
