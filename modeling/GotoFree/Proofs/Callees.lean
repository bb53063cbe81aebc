import GotoFree.Proofs.Agenda
import GotoFree.Proofs.CallSites
import GotoFree.Proofs.Safety

/-!
# Which functions are called and made

Most steps of an instruction make no functions. A call goes to the function of a method that is
lowered in the end, or to a dispatch function, which is made for it (`Job.gives_call`) and calls
functions of methods (`Job.Dispatcher`).
-/

namespace GotoFree

open Target (Script Stmt)

/-- A method with a name is named this. -/
def Agenda.Names (agenda : Agenda) (name : String) : Prop := ∃ id, agenda.nameOf? id = some name

/-- A number is the tag of a class. -/
def Layout.HasTag (layout : Layout) (className : String) (number : Int) : Prop :=
  ∃ position, layout.tag? className = some position ∧ (position : Int) = number

/-- The name of the dispatch function of an instruction with a number. -/
def dispatchName (number : Nat) : String := "__vtable_" ++ toString number

namespace Job

/-- The name of the function of a loop. -/
def loopName (job : Job) (head : BlockId) : String := job.function ++ "__loop_" ++ head.text

variable {job : Job} {scope : Scope} {instr : Instr} {later : Agenda} {unit : Option Nat}
  {number : Nat}

/-- A step that makes no functions. -/
abbrev Quiet (job : Job) (later : Agenda) (unit : Option Nat) {α : Type} (step : Lower α) : Prop :=
  Lower.Answers (·.Within job.setting.program later unit) step fun _ => True

/-- A check makes no functions. -/
theorem Quiet.check {α : Type} {result : Except Rejection α} :
    job.Quiet later unit (Lower.check result) :=
  Lower.Still.check.answers

/-- A step that makes no functions answers as it does anyway. -/
theorem Quiet.yields {α : Type} {step : Lower α} {post : α → Prop}
    (quiet : job.Quiet later unit step) (yields : Lower.Yields step post) :
    Lower.Answers (·.Within job.setting.program later unit) step post := by
  intro progress answer after made within
  obtain ⟨before, functions, last, none, -⟩ := quiet progress answer after made within
  exact ⟨before, functions, last, none, yields progress answer after made⟩

/-- A step that makes no functions, with what it answers under a condition. -/
theorem Quiet.under {α : Type} {step : Lower α} {condition : Prop} {post : α → Prop}
    (quiet : job.Quiet later unit step) (yields : condition → Lower.Yields step post) :
    Lower.Answers (·.Within job.setting.program later unit) step fun answer =>
      condition → post answer :=
  quiet.yields fun progress answer after made holds => yields holds progress answer after made

/-! ## Fields -/

/-- An access to a field makes no functions. -/
theorem still_openField {base : String} {field : FieldRef} {possibleTypes : SortedSet String} :
    Lower.Still (job.openField scope base field possibleTypes instr) := by
  unfold openField
  refine Lower.Still.check.bind fun place => Lower.Still.check.bind fun binding => ?_
  cases binding with
  | mutable =>
      exact Lower.still_fresh.bind fun object => Lower.still_fresh.bind fun cell => .pure
  | const => exact Lower.still_fresh.bind fun cell => .pure

theorem still_fieldValue {base : String} {field : FieldRef} {possibleTypes : SortedSet String} :
    Lower.Still (job.fieldValue scope base field possibleTypes instr) :=
  still_openField.bind fun _ => .pure

theorem quiet_fieldValue {base : String} {field : FieldRef} {possibleTypes : SortedSet String} :
    job.Quiet later unit (job.fieldValue scope base field possibleTypes instr) :=
  still_fieldValue.answers

/-- A store into a field makes no functions. -/
theorem still_storeField {base : String} {field : FieldRef} {possibleTypes : SortedSet String}
    {value : Target.Expr} :
    Lower.Still (job.storeField scope base field possibleTypes value instr) := by
  refine still_openField.bind fun access => ?_
  split
  · exact .pure
  · exact .throw
  · exact .reject

/-- An assignment makes no functions. -/
theorem still_assign {value : Target.Expr} {place : Place} :
    Lower.Still (job.assign scope instr value place) := by
  cases place with
  | var name => exact Lower.Still.check.bind fun stored => .pure
  | field base field possibleTypes => exact still_storeField.bind fun stored => .pure
  | arrayElement base index =>
      exact Lower.Still.check.bind fun array => Lower.Still.check.bind fun position => .pure

theorem quiet_assign {value : Target.Expr} {place : Place} :
    job.Quiet later unit (job.assign scope instr value place) :=
  still_assign.answers

/-- The argument of a source is found without making functions. -/
theorem still_nameOfSource {source : Source} : Lower.Still (job.nameOfSource source instr) := by
  unfold nameOfSource
  split
  · split
    · exact .pure
    · exact .throw
  · exact .reject

theorem quiet_nameOfSource {source : Source} :
    job.Quiet later unit (job.nameOfSource source instr) :=
  still_nameOfSource.answers

/-! ## Flags -/

/-- A coordinate is recorded without making functions. -/
theorem still_record {coord : Coord} : Lower.Still (job.record coord) := by
  unfold record
  split
  · exact Lower.still_flag.bind fun flag => .pure
  · exact .pure

/-- A test on flags is built without making functions. -/
theorem still_flagTest {flags : List Int} : Lower.Still (flagTest flags) := by
  unfold flagTest
  split
  · exact .pure
  · exact .throw

theorem still_flags {coords : CoordSet} : Lower.Still (coords.toList.mapM Lower.flag) :=
  .mapM fun _ _ => Lower.still_flag

theorem still_gate {coords : CoordSet} : Lower.Still (gate coords) :=
  still_flags.bind fun _ => still_flagTest

theorem quiet_gate {coords : CoordSet} : job.Quiet later unit (gate coords) :=
  still_gate.answers

/-- A jump makes no functions. -/
theorem still_jump {coord : Coord} : Lower.Still (job.jump scope coord) := by
  refine still_record.bind fun recording => ?_
  split
  · split
    · exact .pure
    · exact .reject
  · split <;> exact .pure

theorem quiet_jump {coord : Coord} : job.Quiet later unit (job.jump scope coord) :=
  still_jump.answers

/-- A return makes no functions. -/
theorem still_ret {id : BlockId} {value : Option Operand} :
    Lower.Still (job.ret scope id value) := by
  have whole (result : Target.Expr) : Lower.Still (job.record ⟨id, .exit⟩ >>=
      fun recording => pure (recording ++ Script.ofStmts (job.returnAliases scope) ++
        [Script.ret result])) :=
    still_record.bind fun recording => .pure
  cases value with
  | none => exact whole .unit
  | some operand => exact Lower.Still.check.bind fun value => whole value

theorem quiet_ret {id : BlockId} {value : Option Operand} :
    job.Quiet later unit (job.ret scope id value) :=
  still_ret.answers

/-- A conditional return makes no functions. -/
theorem still_returnIf {coords : CoordSet} {value : Target.Expr} :
    Lower.Still (returnIf coords value) := by
  unfold returnIf
  split
  · exact .pure
  · exact still_gate.bind fun test => .pure

/-- Running the loop around another one again makes no functions. -/
theorem still_recurseAfter {label : Label} : Lower.Still (job.recurseAfter scope label) := by
  unfold recurseAfter
  dsimp only
  split
  · exact .pure
  · split
    · exact still_returnIf
    · exact .reject

theorem quiet_recurseAfter {label : Label} :
    job.Quiet later unit (job.recurseAfter scope label) :=
  still_recurseAfter.answers

/-- Leaving a loop makes no functions. -/
theorem still_returnAfter {label : Label} : Lower.Still (job.returnAfter scope label) :=
  still_returnIf.bind fun _ => still_returnIf.bind fun _ => .pure

theorem quiet_returnAfter {label : Label} : job.Quiet later unit (job.returnAfter scope label) :=
  still_returnAfter.answers

/-- The test of an alternative is built without making functions. -/
theorem still_alternativeTest {label : Label} {head : BlockId} :
    Lower.Still (job.alternativeTest label head) := by
  unfold alternativeTest
  split
  · split
    · exact still_flags.bind fun flags => still_flagTest
    · exact .reject
  · exact .reject

theorem quiet_alternativeTest {label : Label} {head : BlockId} :
    job.Quiet later unit (job.alternativeTest label head) :=
  still_alternativeTest.answers

/-! ## Calls -/

/-- A callee has the name that it is given to the end. -/
theorem answers_requestCallee {callee : MethodId} :
    Lower.Answers (·.Within job.setting.program later unit) (job.requestCallee callee)
      fun name => later.nameOf? callee = some name := by
  unfold requestCallee
  split
  · next method isMethod => exact Lower.answers_request isMethod
  · exact .reject

/-- What a statement of a dispatch function does: if a test of the tag holds, it returns what a
method's function returns for the arguments. -/
def IsDispatchArm (later : Agenda) (tag : Target.Expr) (args : List Target.Expr) (stmt : Stmt) :
    Prop :=
  ∃ tags test function, tag.anyOf? tags = some test ∧ later.Names function ∧
    stmt = .onlyIf test [.ret (.call function args)]

/-- A statement of a dispatch function that calls the function of a method for the tags of some
classes. -/
def IsArmOf (job : Job) (later : Agenda) (tag : Target.Expr) (args : List Target.Expr)
    (callee : MethodId) (classes : SortedSet String) (stmt : Stmt) : Prop :=
  ∃ tags test function, List.Forall₂ job.setting.layout.HasTag classes.toList tags ∧
    tag.anyOf? tags = some test ∧ later.nameOf? callee = some function ∧
    stmt = .onlyIf test [.ret (.call function args)]

/-- An arm of a dispatch function runs a method with the arguments of that function. -/
theorem IsArmOf.isDispatchArm {tag : Target.Expr} {args : List Target.Expr} {callee : MethodId}
    {classes : SortedSet String} {stmt : Stmt}
    (isArm : job.IsArmOf later tag args callee classes stmt) :
    IsDispatchArm later tag args stmt := by
  obtain ⟨tags, test, function, -, isTest, named, same⟩ := isArm
  exact ⟨tags, test, function, isTest, ⟨callee, named⟩, same⟩

/-- An arm is built for each method of a dispatch table. -/
theorem answers_dispatchArm {tag : Target.Expr} {args : List Target.Expr} {callee : MethodId}
    {classes : SortedSet String} :
    Lower.Answers (·.Within job.setting.program later unit)
      (job.dispatchArm tag args callee classes)
      (job.IsArmOf later tag args callee classes) := by
  unfold dispatchArm
  refine (@Lower.Answers.mapM _ _ _ _ _ job.setting.layout.HasTag fun className _ => ?_).andThen
    fun tags => answers_requestCallee.andThen fun function => ?_
  · split
    · next position isTag => exact .pure ⟨position, isTag, rfl⟩
    · exact .reject
  · split
    · next test isTest =>
      exact .pure fun named areTags => ⟨tags, test, function, areTags, isTest, named, rfl⟩
    · exact .throw

/-- The parameters of the dispatch function of a call. -/
def dispatchParams (site : Call) : List String :=
  "this" :: (List.range site.callee.arity.toNat).map fun index => "__p" ++ toString index

/-- The parameters of a dispatch function have different names. -/
theorem nodup_dispatchParams {site : Call} : (dispatchParams site).Nodup := by
  refine List.nodup_cons.2 ⟨fun member => ?_, List.nodup_range.map fun one two same => ?_⟩
  · obtain ⟨index, -, same⟩ := List.mem_map.1 member
    have first := congrArg (fun name => name.toList[0]?) same
    simp [String.toList_append] at first
  · exact toString_inj ((String.append_right_inj _).1 same)

/-- The slot of an object's tag as a dispatch function reads it. -/
def tagHandle (width : Nat) : Handle := ⟨.var "this", 0, width, "__tag"⟩

/-- A function is the dispatch function of a call in an instruction with a number: it tries one arm
after the other. -/
def Dispatcher (job : Job) (later : Agenda) (number : Nat) (function : Target.Function) : Prop :=
  ∃ site instr width arms type, job.receiverWidth site instr = .ok width ∧
    (∀ arm ∈ arms, IsDispatchArm later (job.setting.model.read (tagHandle width)).2
      ((dispatchParams site).map .var) arm) ∧
    function = ⟨dispatchName number, dispatchParams site,
      ((job.setting.model.read (tagHandle width)).1 ++
        Script.ofStmts (arms ++ [Stmt.assertFalse, .ret (Ty.default type)])).stmts⟩

/-- A function is the dispatch function of some call, with an arm for each entry of a table. -/
def DispatcherOf (job : Job) (later : Agenda) (number : Nat) (site : Call) (instr : Instr)
    (table : DispatchTable) (function : Target.Function) : Prop :=
  ∃ width arms type, job.receiverWidth site instr = .ok width ∧
    List.Forall₂ (fun entry => job.IsArmOf later (job.setting.model.read (tagHandle width)).2
      ((dispatchParams site).map .var) entry.1 entry.2) table.entries arms ∧
    function = ⟨dispatchName number, dispatchParams site,
      ((job.setting.model.read (tagHandle width)).1 ++
        Script.ofStmts (arms ++ [Stmt.assertFalse, .ret (Ty.default type)])).stmts⟩

theorem DispatcherOf.dispatcher {site : Call} {table : DispatchTable} {function : Target.Function}
    (isDispatcher : job.DispatcherOf later number site instr table function) :
    job.Dispatcher later number function := by
  obtain ⟨width, arms, type, isWidth, areArms, same⟩ := isDispatcher
  refine ⟨site, instr, width, arms, type, isWidth, fun arm member => ?_, same⟩
  obtain ⟨entry, -, isArm⟩ := exists_of_mem_right areArms member
  exact isArm.isDispatchArm

/-- A dispatch function is made for a table, and nothing else. -/
theorem gives_dispatch {site : Call} {table : DispatchTable} :
    Lower.Gives (·.Within job.setting.program later (some number)) (job.dispatch site table instr)
      fun name made => ∃ function, made = [function] ∧ function.name = name ∧
        job.DispatcherOf later number site instr table function := by
  unfold dispatch
  refine Lower.Answers.bind (Lower.Answers.check fun width found => found) fun width => ?_
  refine Lower.answers_get.bind fun progress => ?_
  refine Lower.Answers.bind (Lower.Answers.mapM fun entry _ => answers_dispatchArm) fun arms => ?_
  refine Lower.gives_addHelper.bind fun _ => .pure ?_
  rintro _ rfl isArm within isWidth
  have same : progress.temporaries.unit = number := within.unit number rfl
  exact ⟨_, List.append_nil _, rfl, width, arms, job.dispatchType table, isWidth, isArm,
    by rw [same]; rfl⟩

/-- A call goes to a function: to that of a method, or to a dispatch function that is made for
it. -/
def Reaches (job : Job) (later : Agenda) (number : Nat) (function : String)
    (made : List Target.Function) : Prop :=
  made = [] ∧ later.Names function ∨
    ∃ dispatcher, made = [dispatcher] ∧ dispatcher.name = function ∧
      job.Dispatcher later number dispatcher

/-- A call goes to the function of its implementation, or, if a virtual call has several, to its
dispatch function. -/
def Serves (job : Job) (later : Agenda) (number : Nat) (site : Call) (instr : Instr)
    (function : String) (made : List Target.Function) : Prop :=
  (made = [] ∧ ∃ callee ∈ job.setting.program.implementations site,
      later.nameOf? callee = some function ∧
        ∀ other ∈ job.setting.program.implementations site, other = callee) ∨
    ∃ dispatcher table, site.kind = .virtual ∧ made = [dispatcher] ∧ dispatcher.name = function ∧
      job.dispatchTable site instr = .ok table ∧
      job.DispatcherOf later number site instr table dispatcher

/-- The function of a call reaches methods that are lowered. -/
theorem Serves.reaches {site : Call} {function : String} {made : List Target.Function}
    (serves : job.Serves later number site instr function made) :
    job.Reaches later number function made := by
  obtain ⟨none, callee, -, named, -⟩ | ⟨dispatcher, table, -, same, named, -, isDispatcher⟩ :=
    serves
  · exact .inl ⟨none, callee, named⟩
  · exact .inr ⟨dispatcher, same, named, isDispatcher.dispatcher⟩

/-- A call is served by the function of a method, or by a dispatch function that is made for it. -/
theorem gives_calleeOf {site : Call} :
    Lower.Gives (·.Within job.setting.program later (some number)) (job.calleeOf site instr)
      fun callee made => (callee = none ∧ made = []) ∨
        ∃ function, callee = some function ∧ job.Serves later number site instr function made := by
  have direct {callee : MethodId} (known : callee ∈ job.setting.program.implementations site)
      (only : ∀ other ∈ job.setting.program.implementations site, other = callee) :
      Lower.Gives (·.Within job.setting.program later (some number))
        (do return some (← job.requestCallee callee)) fun found made => (found = none ∧ made = []) ∨
          ∃ function, found = some function ∧ job.Serves later number site instr function made :=
    answers_requestCallee.bind fun function => .pure fun named =>
      .inr ⟨function, rfl, .inl ⟨rfl, callee, known, named, only⟩⟩
  unfold calleeOf
  dsimp only
  split
  · next isStatic =>
    split
    · next found =>
      exact direct (by simp [Program.implementations, isStatic, found])
        (by simp [Program.implementations, isStatic, found])
    · exact .reject
  · next isSpecial =>
    split
    · next found =>
      exact direct (by simp [Program.implementations, isSpecial, found])
        (by simp [Program.implementations, isSpecial, found])
    · split
      · exact Lower.still_warn.answers.skip fun _ => .pure (.inl ⟨rfl, rfl⟩)
      · exact .reject
  · next isVirtual =>
    refine Lower.Gives.check_bind fun table made => ?_
    have lists {id : MethodId} : id ∈ table.keys ↔
        id ∈ job.setting.program.implementations site := mem_keys_dispatchTable made isVirtual
    split
    · next id classes single =>
      have keys : table.keys = [id] := by simp [SortedMap.keys, single]
      refine direct (lists.1 (keys ▸ List.mem_singleton_self _)) fun other member => ?_
      exact List.mem_singleton.1 (keys ▸ lists.2 member)
    · refine gives_dispatch.bind fun name => .pure ?_
      rintro _ ⟨function, rfl, named, isDispatcher⟩
      exact .inr ⟨name, rfl, .inr ⟨function, table, isVirtual, rfl, named, made, isDispatcher⟩⟩

/-- A call passes its operands to the function that it goes to. -/
theorem gives_call {site : Call} :
    Lower.Gives (·.Within job.setting.program later (some number)) (job.call scope site instr)
      fun answer made => (answer = none ∧ made = []) ∨
        ∃ function temporaries operands args, job.operandsOf site instr = .ok operands ∧
          List.Forall₂ (fun (entry : Operand × Nat) arg =>
            job.pass scope temporaries entry.1 entry.2 = .ok arg) operands.zipIdx args ∧
          answer = some ⟨args.flatMap Computed.before, .call function (args.map Computed.value),
            args.flatMap Computed.after⟩ ∧ job.Serves later number site instr function made := by
  unfold call
  refine gives_calleeOf.bind fun callee => ?_
  split
  · refine .pure ?_
    rintro made (⟨-, rfl⟩ | ⟨function, same, -⟩)
    · exact .inl ⟨rfl, rfl⟩
    · cases same
  · next function =>
    refine (Lower.Answers.check fun operands found => found).bind fun operands => ?_
    refine Lower.answers_get.bind fun progress => ?_
    refine (Lower.Answers.check fun args passed => passed).bind fun args => .pure ?_
    rintro passed - isOperands made (⟨same, -⟩ | ⟨_, ⟨⟩, serves⟩)
    · cases same
    · refine .inr ⟨function, progress.temporaries, operands, args, isOperands,
        mapM_eq_ok_iff.1 passed, rfl, ?_⟩
      rwa [List.append_nil]

end Job

/-! ## Methods -/

/-- Warnings leave what has been handed out. -/
theorem Lower.agenda_forM_warn {warnings : List String} {progress after : Progress} {answer : PUnit}
    (warned : warnings.forM warn progress = .ok (answer, after)) :
    after.agenda = progress.agenda :=
  (Still.forM (fun _ _ => still_warn) progress answer after warned).2.1

/-- What happens while a method is lowered: it gets its name, its graph is structured, and its
locals and its tree are lowered. No flag has been handed out before, and no function been made. -/
theorem Lower.method_runs {setting : Setting} {id : MethodId} {method : Method}
    {progress after : Progress} {code : MethodCode}
    (made : Lower.method setting id method progress = .ok (code, after)) :
    ∃ (job : Job) (graph : BlockGraph) (found : Structured) (tree : Tree) (entry : Script)
      (scope : Scope) (steps : Script) (inside : Scope) (begun : Progress),
      job.setting = setting ∧ job.id = id ∧ job.method = method ∧ job.function = code.name ∧
      method.checkedPlan = .ok job.plan ∧
      BlockGraph.ofBlocks method.entry method.blocks = .ok graph ∧
      graph.toStructured = .ok found ∧ found.IsOf graph ∧
      found.root.marked found.recursing = .ok (tree, job.flags) ∧
      IsMarkedTree graph found.forest tree job.flags ∧
      job.introduceEntry .empty job.plan.entry.entries = .ok (entry, scope) ∧
      begun.agenda = (progress.agenda.request id method.className method.name).2 ∧
      code.name = (progress.agenda.request id method.className method.name).1 ∧
      begun.helpers = [] ∧ begun.recorded = .empty ∧
      job.tree scope tree begun = .ok ((steps, inside), after) ∧
      code.functions = after.helpers ++ [⟨code.name, method.incomingNames, job.closed inside
        ((if job.hasControlCell then [Script.bindCell controlCell (.int 0)] else []) ++ entry ++
          steps)⟩] ∧
      code.flags = (after.recorded.listed 1).map fun (flag, coord) => ((flag : Int), coord) := by
  unfold Lower.method at made
  obtain ⟨function, _, named, made⟩ := stepped_bind_iff.1 made
  cases named
  obtain ⟨plan, _, planned, made⟩ := stepped_bind_iff.1 made
  obtain ⟨isPlan, rfl⟩ := check_apply_iff.1 planned
  cases built : BlockGraph.ofBlocks method.entry method.blocks with
  | error fault =>
      obtain ⟨_, _, fails, -⟩ := stepped_bind_iff.1 made
      simp only [structured, built] at fails
      cases fails
  | ok graph =>
      obtain ⟨found, tree, flags, isStructured, isFound, marked, isMarked, structures⟩ :=
        @structured_found id method graph built
      rw [structures, bind_assoc] at made
      obtain ⟨_, warned, warns, made⟩ := stepped_bind_iff.1 made
      rw [pure_bind] at made
      obtain ⟨_, _, begins, made⟩ := stepped_bind_iff.1 made
      cases begins
      obtain ⟨⟨entry, scope⟩, _, introduces, made⟩ := stepped_bind_iff.1 made
      obtain ⟨enters, rfl⟩ := check_apply_iff.1 introduces
      obtain ⟨⟨steps, inside⟩, _, lowered, made⟩ := stepped_bind_iff.1 made
      cases made
      refine ⟨_, graph, found, tree, entry, scope, steps, inside, _, rfl, rfl, rfl, rfl, isPlan,
        rfl, isStructured, isFound, marked, isMarked, enters, ?_, rfl, ?_, ?_, lowered, rfl, rfl⟩
      · exact agenda_forM_warn warns
      · rfl
      · rfl

/-- A method of a program is lowered as `Lower.method_runs` says, and what it asks for leads on from
the agenda before. -/
theorem Lower.method_cases {setting : Setting} {id : MethodId} {method : Method}
    {progress after : Progress} {code : MethodCode}
    (isMethod : setting.program.method? id = some method)
    (made : Lower.method setting id method progress = .ok (code, after)) :
    ∃ (job : Job) (graph : BlockGraph) (forest : LoopForest) (tree : Tree) (entry : Script)
      (scope : Scope) (steps : Script) (inside : Scope) (begun : Progress),
      job.setting = setting ∧ job.id = id ∧ job.method = method ∧ job.function = code.name ∧
      method.checkedPlan = .ok job.plan ∧
      BlockGraph.ofBlocks method.entry method.blocks = .ok graph ∧ forest.IsOf graph ∧
      IsMarkedTree graph forest tree job.flags ∧
      job.introduceEntry .empty job.plan.entry.entries = .ok (entry, scope) ∧
      progress.agenda.Leads setting.program begun.agenda ∧ begun.helpers = [] ∧
      begun.agenda.nameOf? id = some code.name ∧
      job.tree scope tree begun = .ok ((steps, inside), after) ∧
      code.functions = after.helpers ++ [⟨code.name, method.incomingNames, job.closed inside
        ((if job.hasControlCell then [Script.bindCell controlCell (.int 0)] else []) ++ entry ++
          steps)⟩] := by
  obtain ⟨job, graph, found, tree, entry, scope, steps, inside, begun, ofSetting, isId, ofMethod,
    isName, isPlan, built, -, isFound, -, isMarked, introduces, agenda, name, none, -, lowered,
    functions, -⟩ := method_runs made
  refine ⟨job, graph, found.forest, tree, entry, scope, steps, inside, begun, ofSetting, isId,
    ofMethod, isName, isPlan, built, isFound.isOf, isMarked, introduces, ?_, none, ?_, lowered,
    functions⟩
  · rw [agenda]
    exact Agenda.leads_request isMethod
  · rw [agenda, name]
    exact Agenda.nameOf?_request

/-- A program is lowered if its entry takes no arguments, its classes have a layout, and its methods
are lowered. -/
theorem Program.lower_eq_ok_iff {program : Program} {model : ObjectModel} {entry : Option MethodId}
    {lowered : LoweredProgram} : program.lower model entry = .ok lowered ↔
      ∃ prepared layout last,
        ({ program with entry := entry.getD program.entry } : Program).withoutArguments =
          .ok prepared ∧
        Layout.ofProgram prepared = .ok layout ∧
        Lower.program ⟨prepared, layout, model⟩ .start = .ok (lowered, last) := by
  unfold Program.lower
  dsimp only
  constructor
  · intro lowers
    cases chosen : ({ program with entry := entry.getD program.entry } : Program).withoutArguments
      with
    | error reason =>
        rw [chosen] at lowers
        cases lowers
    | ok prepared =>
        rw [chosen, Except.mapError, ok_bind] at lowers
        cases made : Layout.ofProgram prepared with
        | error reason =>
            rw [made] at lowers
            cases lowers
        | ok layout =>
            rw [made, Except.mapError, ok_bind, Program.lowerWith] at lowers
            obtain ⟨⟨answer, last⟩, ran, same⟩ := bind_eq_ok_iff.1 lowers
            cases same
            exact ⟨prepared, layout, last, rfl, made, ran⟩
  · rintro ⟨prepared, layout, last, chosen, made, ran⟩
    rw [chosen, Except.mapError, ok_bind, made, Except.mapError, ok_bind, Program.lowerWith,
      StateT.run', ran]
    rfl

/-- What taking away the entry's arguments leaves of a program: a static entry without parameters,
and the other methods as they are. -/
theorem Program.withoutArguments_cases {program prepared : Program}
    (chosen : program.withoutArguments = .ok prepared) :
    ∃ method, program.method? program.entry = some method ∧ method.isStatic = true ∧
      ((method.params = [] ∧ prepared = program) ∨
        prepared = { program with
          methods := program.methods.insert program.entry method.withoutArguments }) := by
  unfold withoutArguments at chosen
  split at chosen
  · cases chosen
  · next method isEntry =>
    split at chosen
    · cases chosen
    · next isStatic =>
      refine ⟨method, isEntry, by simpa using isStatic, ?_⟩
      split at chosen
      · next none =>
        cases chosen
        exact .inl ⟨List.isEmpty_iff.1 none, rfl⟩
      · split at chosen
        · cases chosen
        · split at chosen
          · cases chosen
          · cases chosen
            exact .inr rfl

@[simp] theorem Method.isStatic_withoutArguments {method : Method} :
    method.withoutArguments.isStatic = method.isStatic := by
  unfold withoutArguments
  dsimp only
  split <;> rfl

@[simp] theorem Method.params_withoutArguments {method : Method} :
    method.withoutArguments.params = [] := by
  unfold withoutArguments
  dsimp only
  split <;> rfl

theorem Method.locals_withoutArguments {method : Method} :
    method.withoutArguments.locals ⊆ method.locals := by
  unfold withoutArguments
  dsimp only
  split
  · exact List.Subset.refl _
  · exact fun declared member => (List.mem_filter.1 member).1

/-- The entry method takes no arguments once they are taken away. -/
theorem Program.entry_of_withoutArguments {program prepared : Program}
    (chosen : program.withoutArguments = .ok prepared) : ∃ method,
      prepared.method? prepared.entry = some method ∧ method.isStatic = true ∧
        method.params = [] := by
  obtain ⟨method, isEntry, isStatic, ⟨none, rfl⟩ | rfl⟩ := withoutArguments_cases chosen
  · exact ⟨method, isEntry, isStatic, none⟩
  · exact ⟨method.withoutArguments, SortedMap.get?_insert_self,
      Method.isStatic_withoutArguments.trans isStatic, Method.params_withoutArguments⟩

/-- A method stays as it is when the entry's arguments are taken away, unless it is the entry. -/
theorem Program.method_of_withoutArguments {program prepared : Program}
    (chosen : program.withoutArguments = .ok prepared) {id : MethodId} {method : Method}
    (isMethod : prepared.method? id = some method) : ∃ original,
      program.method? id = some original ∧
        (method = original ∨ method = original.withoutArguments) := by
  obtain ⟨entry, isEntry, -, ⟨-, rfl⟩ | rfl⟩ := withoutArguments_cases chosen
  · exact ⟨method, isMethod, .inl rfl⟩
  · rw [method?, SortedMap.get?_insert] at isMethod
    split at isMethod
    · next same =>
      cases isMethod
      exact ⟨entry, same ▸ isEntry, .inr rfl⟩
    · exact ⟨method, isMethod, .inl rfl⟩

end GotoFree
