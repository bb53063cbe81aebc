import GotoFree.Proofs.Aliases
import GotoFree.Proofs.RecastSteps

/-!
# Methods for the other object model

A job for the functional model and the same job for the mutable one look at objects in four places
only: where an object is made, where a slot is accessed, where a path is followed, and where the tag
of a receiver is read. The code of all else is made in the same way, so trees are lowered to recast
code (`Job.recasts_tree`).
-/

namespace GotoFree

open Target (Script Step Stmt)

/-! ## Values -/

/-- The value for the functional model and that for the mutable one, each with its steps. After them
names are tied again only where control goes on. -/
structure Computed.Recast (one other : Computed) : Prop where
  value : one.value.Recast other.value
  steps : ∃ goes, Script.Recast false one.before other.before goes ∧
    ∀ opened, (goes = true → opened = true) →
      Script.Recast opened (Script.ofStmts one.after) (Script.ofStmts other.after) opened

theorem Computed.Recast.pure {one other : Target.Expr} (recast : one.Recast other) :
    Computed.Recast (.pure one) (.pure other) :=
  ⟨recast, false, .nil nofun, fun _ _ => .nil id⟩

/-- Steps for the functional model and those for the mutable one, with the same scope after them. -/
structure StepsRecast (one other : Script × Scope) : Prop where
  steps : Script.Recast false one.1 other.1 false
  scope : one.2 = other.2

/-- Instructions for the functional model and the same ones for the mutable one. -/
structure Job.Lowered.Recast (one other : Job.Lowered) : Prop where
  steps : Script.Recast false one.steps other.steps false
  scope : one.scope = other.scope
  condition : Option.Rel Target.Expr.Recast one.condition other.condition
  returned : one.returned = other.returned

theorem StepsRecast.plain {one other : Script × Scope} (recast : StepsRecast one other) :
    Job.Lowered.Recast (.plain one) (.plain other) :=
  ⟨recast.steps, recast.scope, .none, rfl⟩

theorem StepsRecast.refl (result : Script × Scope) : StepsRecast result result :=
  ⟨.refl _, rfl⟩

/-- The setting with another object model. -/
def Setting.inModel (setting : Setting) (model : ObjectModel) : Setting := { setting with model }

namespace Job

/-- The job with another object model. -/
def inModel (job : Job) (model : ObjectModel) : Job :=
  { job with setting := job.setting.inModel model }

/-- A step of the job for the functional model and the same step for the mutable one. -/
abbrev Recasts {α : Type} (job : Job) (step : Job → Lower α) (Related : α → α → Prop) : Prop :=
  Lower.Recasts (step (job.inModel .functional)) (step (job.inModel .mutable)) Related

variable {job : Job} {scope : Scope} {source : Instr} {base : String} {field : FieldRef}
  {possibleTypes : SortedSet String}

/-! ## Fields -/

/-- A field is opened alike in both models. -/
theorem steady_openField :
    Lower.Steady (job.openField scope base field possibleTypes source) := by
  unfold openField
  refine (Lower.Steady.check _).bind fun place => (Lower.Steady.check _).bind fun binding => ?_
  cases binding with
  | mutable =>
      exact Lower.Steady.fresh.bind fun object => Lower.Steady.fresh.bind fun cell => .pure _
  | const => exact Lower.Steady.fresh.bind fun cell => .pure _

/-- Both models open the same access. -/
theorem recasts_openField :
    job.Recasts (·.openField scope base field possibleTypes source) fun access access' =>
      access = access' ∧ IsAccess access.handle access.owner := by
  have steady : job.Recasts (·.openField scope base field possibleTypes source) Eq :=
    steady_openField
  refine (steady.yields yields_openField).imp fun access access' opened => ?_
  obtain ⟨same, opened⟩ := opened
  refine ⟨same, opened.cell, ?_⟩
  have shape := opened.before
  split at shape
  · next isCell =>
    obtain ⟨ending, -, named⟩ := shape
    rw [if_pos isCell]
    exact ⟨ending, named⟩
  · next isName =>
    rw [if_neg isName, opened.owner]
    exact shape.2.1

/-- A field is read alike in both models. -/
theorem recasts_fieldValue :
    job.Recasts (·.fieldValue scope base field possibleTypes source) Computed.Recast := by
  refine recasts_openField.bind ?_
  rintro access _ ⟨rfl, isAccess⟩
  refine .pure ⟨.slot isAccess, true, .named _ _ _, fun opened goes => ?_⟩
  rw [goes rfl]
  exact .ties fun stmt among => ⟨_, _, isAccess, among⟩

/-- What stores a value: the steps go on, and names may be tied again after them. -/
structure Stored (one other : Script × List Stmt) : Prop where
  steps : ∀ opened, Script.Recast opened one.1 other.1 true
  after : Script.Recast true (Script.ofStmts one.2) (Script.ofStmts other.2) true

/-- A value that the functional model can store into a field the mutable one can store too. -/
theorem recasts_storeField {one other : Target.Expr} (value : one.Recast other) :
    Lower.Recasts
      ((job.inModel .functional).storeField scope base field possibleTypes one source)
      ((job.inModel .mutable).storeField scope base field possibleTypes other source) Stored := by
  refine recasts_openField.bind ?_
  rintro ⟨before, handle, owner⟩ _ ⟨rfl, isAccess⟩
  -- The mutable model always writes, so only what the functional one answers has to be looked at.
  cases writes : ObjectModel.functional.write handle owner one with
  | error fault =>
      simp only [inModel, Setting.inModel, writes]
      cases fault with
      | fixedOwner name => exact .reject
      | slotOutsideObject => exact .throw
  | ok steps =>
      simp only [inModel, Setting.inModel, writes]
      unfold ObjectModel.write at writes
      dsimp only at writes
      split_ifs at writes
      cases writes
      refine .pure ⟨fun opened => ?_, .ties fun stmt among => ⟨_, _, isAccess, among⟩⟩
      exact (Script.Recast.refl before).append (.write isAccess value (.nil fun _ => rfl))

/-- A new object. -/
theorem allocate_recast {className : String} {one : Target.Expr}
    (made : (job.inModel .functional).allocate className source = .ok one) :
    ∃ other, (job.inModel .mutable).allocate className source = .ok other ∧ one.Recast other := by
  unfold allocate at made ⊢
  simp only [inModel, Setting.inModel] at made ⊢
  split at made
  · next tag types isTag areTypes =>
    cases made
    exact ⟨_, rfl, .allocate _ _⟩
  · cases made

/-- The value at the end of a path. -/
theorem followPath_recast {path : AccessPath} {one : Target.Expr}
    (made : (job.inModel .functional).followPath scope path source = .ok one) :
    ∃ other, (job.inModel .mutable).followPath scope path source = .ok other ∧
      one.Recast other := by
  obtain ⟨start, starts, made⟩ := bind_eq_ok_iff.1 made
  have begins : (job.inModel .mutable).valueOf scope path.base = .ok start := starts
  unfold followPath
  rw [begins, ok_bind]
  refine exists_foldlM_ok (fun value value' field next recast steps => ?_)
    (Target.Expr.Recast.same start) made
  obtain ⟨place, found, step⟩ := bind_eq_ok_iff.1 steps
  cases step
  exact ⟨_, bind_eq_ok_iff.2 ⟨place, found, rfl⟩, .path place.slot recast⟩

/-! ## Calls -/

/-- A callee is asked for alike in both models. -/
theorem steady_requestCallee {callee : MethodId} : Lower.Steady (job.requestCallee callee) := by
  unfold requestCallee
  split
  · exact .request
  · exact .reject

/-- The statement of a dispatch function that runs one implementation differs in its test only. -/
def ArmRecast (one other : Stmt) : Prop :=
  ∃ test test' body, Target.Expr.Recast test test' ∧ one = .onlyIf test body ∧
    other = .onlyIf test' body

/-- Arms of a dispatch function are recast one by one. -/
theorem recast_arms {one other : List Stmt} (recast : List.Forall₂ ArmRecast one other)
    {opened : Bool} :
    Script.Recast opened (Script.ofStmts one) (Script.ofStmts other) false := by
  induction recast generalizing opened with
  | nil => exact .nil nofun
  | cons here _ ih =>
      obtain ⟨test, test', body, recast, rfl, rfl⟩ := here
      exact .branch recast (.refl body) .nil ih

/-- An arm of a dispatch function is built alike in both models. -/
theorem recasts_dispatchArm {tag tag' : Target.Expr} (recast : tag.Recast tag')
    {args : List Target.Expr} {callee : MethodId} {classes : SortedSet String} :
    Lower.Recasts ((job.inModel .functional).dispatchArm tag args callee classes)
      ((job.inModel .mutable).dispatchArm tag' args callee classes) ArmRecast := by
  refine Lower.Recasts.andThen (.mapM fun className => ?_) fun numbers => ?_
  · split
    · exact .pure _
    · exact .reject
  refine Lower.Recasts.andThen steady_requestCallee fun function => ?_
  have tests := recast.anyOf? numbers
  revert tests
  cases tag.anyOf? numbers <;> cases tag'.anyOf? numbers <;> intro tests
  · exact .throw
  · cases tests
  · cases tests
  · next test test' =>
    obtain ⟨recast⟩ := tests
    exact .pure ⟨test, test', _, recast, rfl, rfl⟩

/-- A dispatch function reads the tag of the receiver. -/
theorem recasts_dispatch {site : Call} {table : DispatchTable} :
    job.Recasts (·.dispatch site table source) Eq := by
  refine Lower.Recasts.andThen (.check _) fun width => ?_
  refine Lower.Recasts.get.bind fun progress progress' same => ?_
  have reads : Target.Expr.Recast
      (ObjectModel.functional.read ⟨.var "this", 0, width, "__tag"⟩).2
      (ObjectModel.mutable.read ⟨.var "this", 0, width, "__tag"⟩).2 :=
    .tag
  refine Lower.Recasts.bind (Lower.Recasts.mapM fun entry _ => recasts_dispatchArm reads)
    fun arms arms' recast => ?_
  rw [same.temporaries]
  refine Lower.Recasts.bind (Lower.recasts_addHelper ⟨rfl, rfl, ?_⟩) fun _ _ _ => .pure rfl
  rw [Script.ofStmts_append, Script.ofStmts_append]
  exact ((Script.Recast.named [] _ _).append
    ((recast_arms recast).append (.refl _))).stmts

/-- The function of a call is found alike in both models. -/
theorem recasts_calleeOf {site : Call} : job.Recasts (·.calleeOf site source) Eq := by
  unfold Recasts calleeOf
  cases site.kind with
  | static =>
      dsimp only [inModel, Setting.inModel]
      split
      · exact Lower.Recasts.andThen steady_requestCallee fun function => .pure rfl
      · exact .reject
  | special =>
      dsimp only [inModel, Setting.inModel]
      split
      · exact Lower.Recasts.andThen steady_requestCallee fun function => .pure rfl
      · split
        · exact Lower.Recasts.andThen .warn fun _ => .pure rfl
        · exact .reject
  | virtual =>
      refine Lower.Recasts.andThen (.check _) fun table => ?_
      split
      · exact Lower.Recasts.andThen steady_requestCallee fun function => .pure rfl
      · exact recasts_dispatch.bind fun name _ same => .pure (congrArg some same)

/-- What comes after a call goes on. -/
theorem yields_after_call {site : Call} :
    Lower.Yields (job.call scope site source) fun answer => ∀ computed ∈ answer,
      ∀ stmt ∈ computed.after, stmt.isTerminal = false := by
  unfold call
  refine Lower.Yields.skip fun callee => ?_
  split
  · exact .pure nofun
  · refine Lower.Yields.skip fun operands => Lower.Yields.skip fun progress => ?_
    refine Lower.Yields.check.bind fun args passed => .pure ?_
    rintro _ ⟨⟩ stmt among
    obtain ⟨arg, isArg, among⟩ := List.mem_flatMap.1 among
    obtain ⟨entry, -, pass⟩ := exists_of_mem_right (mapM_eq_ok_iff.1 passed) isArg
    rcases pass_cases pass with ⟨name, -, -, rfl⟩ | ⟨-, value, -, rfl⟩
    · rw [List.mem_singleton.1 among]
      rfl
    · cases among

/-- A call is lowered alike in both models, up to its ties. -/
theorem recasts_call {site : Call} :
    job.Recasts (·.call scope site source) fun answer answer' => answer = answer' ∧
      ∀ computed ∈ answer, ∀ stmt ∈ computed.after, stmt.isTerminal = false := by
  refine Lower.Recasts.yields (recasts_calleeOf.bind ?_) yields_after_call
  rintro name _ rfl
  cases name with
  | none => exact .pure rfl
  | some function =>
      refine Lower.Recasts.andThen (.check _) fun operands => ?_
      refine Lower.Recasts.get.bind fun progress progress' same => ?_
      rw [same.temporaries]
      exact Lower.Recasts.andThen (.check _) fun args => .pure rfl

/-! ## Instructions -/

/-- An expression is lowered alike in both models. -/
theorem recasts_expr {value : Expr} :
    job.Recasts (·.expr scope source value) Computed.Recast := by
  have plain {first : Except Rejection Target.Expr} {whole : Target.Expr → Target.Expr} :
      Lower.Recasts (Lower.check first >>= fun value => pure (Computed.pure (whole value)))
        (Lower.check first >>= fun value => pure (Computed.pure (whole value)))
        Computed.Recast :=
    .andThen (.check _) fun value => .pure (.pure (.same _))
  cases value with
  | use operand | unary op operand | arrayLength base | newArray type operand => exact plain
  | binary op left right => exact .andThen (.check _) fun left => plain
  | fieldRead base field possibleTypes => exact recasts_fieldValue
  | arrayRead base index => exact .andThen (.check _) fun base => plain
  | new className =>
      refine Lower.Recasts.bind (Lower.Recasts.check fun value made => allocate_recast made) ?_
      exact fun value value' recast => .pure (.pure recast)
  | call site =>
      refine recasts_call.bind ?_
      rintro answer _ ⟨rfl, goes⟩
      cases answer with
      | none => exact .reject
      | some computed =>
          exact .pure ⟨.same _, false, .refl _, fun opened _ =>
            .refl_of_not_isTerminal (goes computed rfl)⟩
  | nondet => exact .pure (.pure (.same _))
  | cast operand type =>
      unfold Recasts expr
      dsimp only
      split
      · exact plain
      · exact .reject
  | unmodelled text operandTypes => exact .reject

/-- Stores into a place, in the same scope after that. -/
structure AssignRecast (one other : Script × Scope × List Stmt) : Prop where
  stored : Stored (one.1, one.2.2) (other.1, other.2.2)
  scope : one.2.1 = other.2.1

/-- A store is lowered alike in both models. -/
theorem recasts_store {name : String} {one other : Target.Expr} (recast : one.Recast other) :
    Lower.Recasts (Lower.check ((job.inModel .functional).store scope name one))
      (Lower.check ((job.inModel .mutable).store scope name other)) fun result result' =>
        (∀ opened, Script.Recast opened result.1 result'.1 true) ∧ result.2 = result'.2 := by
  refine Lower.Recasts.check fun result made => ?_
  unfold store at made ⊢
  split at made
  · cases made
    refine ⟨_, rfl, fun opened => ?_, rfl⟩
    exact .stmt (.assign name recast) (fun _ => rfl) (.nil fun _ => rfl)
  · cases made
  · next binding bound postponed =>
    cases made
    refine ⟨_, rfl, fun opened => ?_, rfl⟩
    cases binding with
    | mutable => exact .bind _ (.mkRef recast) (.nil fun _ => rfl)
    | const => exact .bind _ recast (.nil fun _ => rfl)
  · cases made

/-- An assignment is lowered alike in both models. -/
theorem recasts_assign {one other : Target.Expr} (recast : one.Recast other) {place : Place} :
    Lower.Recasts ((job.inModel .functional).assign scope source one place)
      ((job.inModel .mutable).assign scope source other place) AssignRecast := by
  have nothing : Script.Recast true (Script.ofStmts []) (Script.ofStmts []) true :=
    .nil fun goes => goes
  cases place with
  | var name =>
      refine (recasts_store recast).bind ?_
      rintro ⟨steps, scope⟩ ⟨steps', _⟩ ⟨recast, rfl⟩
      exact .pure ⟨⟨recast, nothing⟩, rfl⟩
  | field base field possibleTypes =>
      refine (recasts_storeField recast).bind fun stored stored' recast => ?_
      exact .pure ⟨recast, rfl⟩
  | arrayElement base index =>
      refine Lower.Recasts.andThen (.check _) fun array => ?_
      refine Lower.Recasts.andThen (.check _) fun position => ?_
      refine .pure ⟨⟨fun opened => ?_, nothing⟩, rfl⟩
      exact .stmt (.arrayStore array position recast) (fun _ => rfl) (.nil fun _ => rfl)

theorem steady_nameOfSource {argument : Source} :
    Lower.Steady (job.nameOfSource argument source) := by
  unfold nameOfSource
  split
  · split
    · exact .pure _
    · exact .throw
  · exact .reject

/-- A plain instruction is lowered alike in both models. -/
theorem recasts_plainInstr {instr : Instr} :
    job.Recasts (·.plainInstr scope instr) StepsRecast := by
  cases instr with
  | assign target value =>
      refine recasts_expr.bind fun computed computed' recast => ?_
      refine (recasts_assign recast.value).bind ?_
      rintro ⟨steps, scope, after⟩ ⟨steps', _, after'⟩ ⟨⟨stores, ties⟩, rfl⟩
      -- What ties names again comes after the store, and control always comes out of a store.
      obtain ⟨goes, before, afterwards⟩ := recast.steps
      have ends := (afterwards true fun _ => rfl).append ties
      rw [← Script.ofStmts_append, ← Script.ofStmts_append] at ends
      exact .pure ⟨((before.append (stores goes)).append ends).ends, rfl⟩
  | call site =>
      refine recasts_call.bind ?_
      rintro answer _ ⟨rfl, -⟩
      cases answer with
      | none => exact .pure (.refl _)
      | some computed => exact .pure (.refl _)
  | nop last =>
      cases last with
      | false => exact .pure (.refl _)
      | true => exact .pure (.refl _)
  | throw value => exact .reject
  | aliased left right =>
      refine Lower.Recasts.bind (.check fun value made => followPath_recast made)
        fun one one' recastLeft => ?_
      refine Lower.Recasts.bind (.check fun value made => followPath_recast made)
        fun other other' recastRight => ?_
      have never : false = true → (Stmt.aliased one other).isTerminal = false := nofun
      exact .pure ⟨.stmt (.aliased recastLeft recastRight) never (.nil nofun), rfl⟩
  | identity target argument => exact .reject
  | branch condition => exact .reject
  | goto => exact .reject
  | ret value => exact .reject

/-! ## Flags -/

/-- A coordinate is recorded alike in both models. -/
theorem steady_record {coord : Coord} : Lower.Steady (job.record coord) := by
  unfold record
  split
  · exact Lower.Steady.flag.bind fun flag => .pure _
  · exact .pure _

theorem steady_flagTest {flags : List Int} : Lower.Steady (flagTest flags) := by
  unfold flagTest
  split
  · exact .pure _
  · exact .throw

theorem steady_gate {coords : CoordSet} : Lower.Steady (gate coords) :=
  Lower.Steady.bind (.mapM fun _ => .flag) fun _ => steady_flagTest

/-- A jump is lowered alike in both models. -/
theorem steady_jump {coord : Coord} : Lower.Steady (job.jump scope coord) := by
  refine steady_record.bind fun recording => ?_
  split
  · split
    · exact .pure _
    · exact .reject
  · split <;> exact .pure _

/-- A return is lowered alike in both models. -/
theorem steady_ret {id : BlockId} {value : Option Operand} :
    Lower.Steady (job.ret scope id value) := by
  have whole (result : Target.Expr) : Lower.Steady (job.record ⟨id, .exit⟩ >>=
      fun recording => pure (recording ++ Script.ofStmts (job.returnAliases scope) ++
        [Script.ret result])) :=
    steady_record.bind fun recording => .pure _
  cases value with
  | none => exact whole .unit
  | some operand => exact (Lower.Steady.check _).bind fun value => whole value

/-- A conditional return is lowered alike in both models. -/
theorem steady_returnIf {coords : CoordSet} {value : Target.Expr} :
    Lower.Steady (returnIf coords value) := by
  unfold returnIf
  split
  · exact .pure _
  · exact steady_gate.bind fun test => .pure _

/-- What runs a loop again is lowered alike in both models. -/
theorem steady_recurseAfter {label : Label} : Lower.Steady (job.recurseAfter scope label) := by
  unfold recurseAfter
  dsimp only
  split
  · exact .pure _
  · split
    · exact steady_returnIf
    · exact .reject

theorem steady_returnAfter {label : Label} : Lower.Steady (job.returnAfter scope label) :=
  steady_returnIf.bind fun _ => steady_returnIf.bind fun _ => .pure _

/-- The test of an alternative is built alike in both models. -/
theorem steady_alternativeTest {label : Label} {head : BlockId} :
    Lower.Steady (job.alternativeTest label head) := by
  unfold alternativeTest
  split
  · split
    · exact Lower.Steady.bind (.mapM fun _ => .flag) fun flags => steady_flagTest
    · exact .reject
  · exact .reject

/-! ## Blocks -/

/-- An instruction is lowered alike in both models. -/
theorem recasts_instr {id : BlockId} {instr : Instr} :
    job.Recasts (·.instr id scope instr) Lowered.Recast := by
  have plain : job.Recasts (·.plainInstr scope instr >>= fun result => pure (.plain result))
      Lowered.Recast :=
    recasts_plainInstr.bind fun result result' recast => .pure recast.plain
  cases instr with
  | branch condition =>
      refine recasts_expr.bind fun computed computed' recast => .pure ?_
      obtain ⟨goes, before, afterwards⟩ := recast.steps
      have steps := before.append (afterwards goes fun through => through)
      exact ⟨steps.ends, rfl, .some recast.value, rfl⟩
  | goto => exact .pure (StepsRecast.refl _).plain
  | ret value =>
      exact Lower.Recasts.andThen steady_ret fun steps => .pure ⟨.refl _, rfl, .none, rfl⟩
  | identity target argument =>
      unfold Recasts Job.instr
      dsimp only
      split
      · exact .pure (StepsRecast.refl _).plain
      · refine Lower.Recasts.andThen steady_nameOfSource fun param => ?_
        refine (recasts_store (.same (.var param))).bind ?_
        rintro ⟨steps, scope⟩ ⟨steps', _⟩ ⟨recast, rfl⟩
        exact .pure (StepsRecast.plain ⟨(recast false).ends, rfl⟩)
  | assign | call | nop | throw | aliased => exact plain

/-- The condition of a block is recast where it is tested. -/
theorem condition_recast {one one' other other' : Option Target.Expr}
    (later : Option.Rel Target.Expr.Recast one one')
    (here : Option.Rel Target.Expr.Recast other other') :
    Option.Rel Target.Expr.Recast (one <|> other) (one' <|> other') := by
  cases later with
  | none => exact here
  | some recast => exact .some recast

/-- Instructions in a row are lowered alike in both models. -/
theorem recasts_instrs {id : BlockId} {index : Nat} {list : List Instr} :
    job.Recasts (·.instrs id index scope list) Lowered.Recast := by
  induction list generalizing index scope with
  | nil => exact .pure (StepsRecast.refl _).plain
  | cons first rest ih =>
      refine Lower.Recasts.andThen .enter fun _ => ?_
      refine recasts_instr.bind fun head head' here => ?_
      rw [here.scope]
      refine ih.bind fun tail tail' later => .pure ?_
      exact ⟨here.steps.append later.steps, later.scope,
        condition_recast later.condition here.condition, by rw [here.returned, later.returned]⟩

/-- A block is opened alike in both models. -/
theorem recasts_openBlock {id : BlockId} {defined : List String}
    {locals : List (String × Binding)} :
    job.Recasts (Lower.check <| ·.openBlock id defined scope locals) Eq := by
  have same (model : ObjectModel) : (job.inModel model).openBlock id defined scope locals =
      job.openBlock id defined scope locals := by
    induction locals generalizing scope with
    | nil => rfl
    | cons first rest ih =>
        simp only [openBlock, ih]
        rfl
  unfold Recasts
  beta_reduce
  rw [same, same]
  exact Lower.Steady.check _

/-- A block is lowered alike in both models. -/
theorem recasts_block {id : BlockId} : job.Recasts (·.block scope id) Lowered.Recast := by
  unfold Recasts block
  dsimp only [inModel]
  split
  · exact .reject
  · next block found =>
    refine recasts_openBlock.bind ?_
    rintro ⟨opening, inside⟩ _ rfl
    refine recasts_instrs.bind fun body body' recast => .pure ?_
    exact ⟨(Script.Recast.refl opening).append recast.steps, recast.scope, recast.condition,
      recast.returned⟩

/-! ## Trees -/

/-- The body of a function is closed alike in both models. -/
theorem closed_recast {steps steps' : Script} (recast : Script.Recast false steps steps' false) :
    Target.Recast false ((job.inModel .functional).closed scope steps)
      ((job.inModel .mutable).closed scope steps') := by
  unfold closed
  rw [recast.isTerminal_eq]
  split
  · exact recast.stmts
  · exact (recast.append (.refl _)).stmts

/-- A gate is around code for both models or for neither, since recast code is empty where the code
is. -/
theorem gated_recast {test : Target.Expr} {one other : List Stmt} :
    Target.Recast false one other → Script.Recast false
      (match one with
        | [] => []
        | stmts => [.stmt (.onlyIf test stmts)])
      (match other with
        | [] => []
        | stmts => [.stmt (.onlyIf test stmts)]) false := by
  intro recast
  cases one with
  | nil =>
      rw [recast.eq_nil_iff.1 rfl]
      exact .nil nofun
  | cons first rest =>
      cases other with
      | nil => cases recast.eq_nil_iff.2 rfl
      | cons first' rest' =>
          exact .branch (.same test) recast .nil (.nil nofun)

mutual

/-- A tree is lowered to recast code. -/
theorem recasts_tree (job : Job) (scope : Scope) (tree : Tree) :
    job.Recasts (·.tree scope tree) StepsRecast := by
  cases tree with
  | jump label coord =>
      unfold Recasts Job.tree
      refine recasts_block.bind fun body body' recast => ?_
      rw [recast.returned, recast.scope]
      split
      · exact .pure ⟨recast.steps, rfl⟩
      · exact Lower.Recasts.andThen steady_jump fun jump =>
          .pure ⟨recast.steps.append (.refl _), rfl⟩
  | conditional label taken notTaken =>
      unfold Recasts Job.tree
      refine recasts_block.bind fun body body' recast => ?_
      rw [recast.scope]
      have conditions := recast.condition
      revert conditions
      cases body.condition <;> cases body'.condition <;> intro conditions
      · exact .reject
      · cases conditions
      · cases conditions
      · next condition condition' =>
        obtain ⟨test⟩ := conditions
        refine (recasts_arm job body'.scope taken).bind fun thenBranch thenBranch' goes => ?_
        refine (recasts_arm job body'.scope notTaken).bind fun elseBranch elseBranch' passes => ?_
        exact .pure ⟨recast.steps.append (.branch test goes passes (.nil nofun)), rfl⟩
  | sequence label elems =>
      unfold Recasts Job.tree
      exact recasts_elems job scope elems
  | loop label entries body =>
      unfold Recasts Job.tree
      refine (recasts_tree job (scope.insideLoop (job.loopFrame scope label)) body).bind ?_
      rintro ⟨steps, after⟩ ⟨steps', _⟩ ⟨recast, rfl⟩
      have body : Target.Recast false ((job.inModel .functional).closed after steps)
        ((job.inModel .mutable).closed after steps') := closed_recast recast
      refine Lower.Recasts.bind (Lower.recasts_addHelper ⟨rfl, rfl, body⟩) fun _ _ _ => ?_
      refine Lower.Recasts.andThen steady_recurseAfter fun recursing => ?_
      exact Lower.Recasts.andThen steady_returnAfter fun returning => .pure (.refl _)
  | merge label alternatives incoming =>
      unfold Recasts Job.tree
      refine (recasts_alternatives job scope label alternatives).bind fun one other recast => ?_
      exact .pure ⟨recast, rfl⟩

/-- An arm of a conditional is lowered to recast code. -/
theorem recasts_arm (job : Job) (scope : Scope) (arm : Arm) :
    job.Recasts (·.arm scope arm) (Target.Recast false) := by
  cases arm with
  | jump coord jumps =>
      unfold Recasts Job.arm
      exact Lower.Recasts.andThen steady_jump fun jump => .pure (.refl _)
  | nested tree =>
      unfold Recasts Job.arm
      exact (recasts_tree job scope tree).bind fun one other recast => .pure recast.steps.stmts

/-- The elements of a sequence are lowered to recast code. -/
theorem recasts_elems (job : Job) (scope : Scope) (elems : List Tree) :
    job.Recasts (·.elems scope elems) StepsRecast := by
  cases elems with
  | nil =>
      unfold Recasts Job.elems
      exact .pure (.refl _)
  | cons tree rest =>
      unfold Recasts Job.elems
      cases tree.notes.gateOn with
      | some coords =>
          refine Lower.Recasts.andThen steady_gate fun test => ?_
          refine (recasts_tree job scope tree).bind fun one other recast => ?_
          refine (recasts_elems job scope rest).bind ?_
          rintro ⟨others, after⟩ ⟨others', _⟩ ⟨later, rfl⟩
          exact .pure ⟨(gated_recast recast.steps.stmts).append later, rfl⟩
      | none =>
          refine (recasts_tree job scope tree).bind ?_
          rintro ⟨own, inside⟩ ⟨own', _⟩ ⟨here, rfl⟩
          refine (recasts_elems job inside rest).bind ?_
          rintro ⟨others, after⟩ ⟨others', _⟩ ⟨later, rfl⟩
          exact .pure ⟨here.append later, rfl⟩

/-- The statements that select among alternatives are recast. -/
theorem recasts_alternatives (job : Job) (scope : Scope) (merge : Label)
    (alternatives : List Tree) : job.Recasts (·.alternatives scope merge alternatives)
      fun one other => Script.Recast false (Script.ofStmts one) (Script.ofStmts other) false := by
  cases alternatives with
  | nil =>
      unfold Recasts Job.alternatives
      exact .pure (.refl _)
  | cons tree rest =>
      unfold Recasts Job.alternatives
      refine Lower.Recasts.andThen steady_alternativeTest fun test => ?_
      refine (recasts_tree job scope tree).bind fun one other here => ?_
      refine (recasts_alternatives job scope merge rest).bind fun others others' later => ?_
      have passes := later.stmts
      rw [Script.stmts_ofStmts, Script.stmts_ofStmts] at passes
      exact .pure (.branch (.same test) here.steps.stmts passes (.nil nofun))

end

end Job

end GotoFree
