import GotoFree.Proofs.Faithful
import GotoFree.Proofs.Places
import GotoFree.Proofs.ReservedTrees
import GotoFree.Proofs.UnshadowedPrograms

/-!
# Runs of methods and their arguments

A run of a method begins with the locals that the entry introduces, some of them with arguments. On
its way an identity instruction gives its local the argument where the local was not bound before,
and leaves the local as it was where it was bound. If the method does nothing with a local but copy
one argument into it, the local holds the argument wherever it is in scope, at any time
(`Lower.method_arguments`).
-/

namespace GotoFree

open Target (Place Script Secrets Stmt Store Value World)

variable {setting : Setting} {id : MethodId} {method : Method} {progress after : Progress}
  {code : MethodCode} {program : Target.Program} {world : World} {args : List Value}
  {store : Store} {place : Target.Place} {target : String} {source : Source}

/-- A program has some functions under their names. -/
def Target.Program.Has (program : Target.Program) (functions : List Target.Function) : Prop :=
  ∀ function ∈ functions, program.function? function.name = some function

namespace MethodCode

/-- A function is that of a loop of a method. -/
def IsLoop (code : MethodCode) (function : Target.Function) : Prop :=
  function ∈ code.functions ∧
    ∃ head : BlockId, function.name = code.name ++ "__loop_" ++ head.text

/-- A run of a method that is called with some arguments comes to a place, in the method's own
function or in that of a loop. -/
def ComesTo (code : MethodCode) (program : Target.Program) (world : World) (args : List Value)
    (store : Store) (place : Target.Place) : Prop :=
  ∃ own depth, program.function? code.name = some own ∧
    program.Comes world code.IsLoop (own.start depth args store) place

/-- A run of a method begins in the method's own function. -/
theorem ComesTo.of_own (comes : code.ComesTo program world args store place)
    (has : program.Has code.functions) {own : Target.Function} (member : own ∈ code.functions)
    (named : own.name = code.name) :
    ∃ depth, program.Comes world code.IsLoop (own.start depth args store) place := by
  obtain ⟨same, depth, isOwn, comes⟩ := comes
  rw [← named] at isOwn
  cases isOwn.symm.trans (has own member)
  exact ⟨depth, comes⟩

end MethodCode

/-! ## Arguments in sight -/

/-- The own function of a method takes the arguments, and those of its loops pass them on. -/
theorem Lower.knows_method (made : Lower.method setting id method progress = .ok (code, after))
    (arguments : method.incomingNames.Nodup)
    (free : ∀ declared ∈ method.locals, ¬ IsMadeUp declared.name) :
    (∃ own ∈ code.functions, own.name = code.name ∧ own.params = method.incomingNames ∧
      own.Knows method.incomingNames) ∧
    ∀ function, code.IsLoop function → function.Knows method.incomingNames := by
  have unshadowed (function : Target.Function) (member : function ∈ code.functions) :
      ∃ known, function.Unshadowed known :=
    (distinguishes_method made arguments (fun declared among makesUp =>
      free declared among makesUp.isMadeUp) function member).elim (⟨_, ·⟩) (⟨_, ·⟩)
  obtain ⟨job, graph, found, tree, entry, scope, steps, inside, begun, rfl, rfl, rfl, named, -, -,
    -, -, -, -, -, -, -, none, -, lowered, functions, -⟩ := method_runs made
  obtain ⟨-, more, helpers, whole⟩ :=
    @Job.gives_helpers_tree job after.agenda scope tree begun _ after lowered ⟨.refl _, nofun⟩
  rw [helpers, none, List.nil_append] at functions
  refine ⟨?_, fun function ⟨member, head, isLoop⟩ => ⟨?_, unshadowed function member⟩⟩
  · have last : _ ∈ code.functions :=
      functions ▸ List.mem_append_right _ (List.mem_singleton_self _)
    exact ⟨_, last, rfl, rfl, List.Subset.refl _, unshadowed _ last⟩
  · rw [functions] at member
    rcases List.mem_append.1 member with member | member
    · cases whole function member with
      | loop => exact fun name among =>
          List.mem_append_left _ (List.mem_append_right _ among)
      | dispatcher isDispatcher =>
          obtain ⟨site, instr, width, arms, type, -, -, rfl⟩ := isDispatcher
          exact absurd isLoop.symm Origin.loopName_ne_dispatchName
    · rw [List.mem_singleton.1 member]
      exact List.Subset.refl _

/-- Wherever a run of a method comes, the names of the arguments stand for them. -/
theorem MethodCode.ComesTo.knows
    (made : Lower.method setting id method progress = .ok (code, after))
    (arguments : method.incomingNames.Nodup)
    (free : ∀ declared ∈ method.locals, ¬ IsMadeUp declared.name)
    (has : program.Has code.functions) (comes : code.ComesTo program world args store place) :
    place.Knows method.incomingNames fun name => (method.incomingNames.zip args).lookup name := by
  obtain ⟨⟨own, member, named, params, knows⟩, loops⟩ := Lower.knows_method made arguments free
  obtain ⟨depth, comes⟩ := comes.of_own has member named
  obtain ⟨among, known, unshadowed⟩ := knows
  refine Place.Knows.comes ⟨⟨known, _, among, unshadowed.body⟩, fun name _ => ?_⟩ loops comes
  rw [Target.Function.start, params]

/-- A source has one argument name. -/
theorem Method.name_eq_of_source {one other : Param} (isOne : one ∈ method.incoming)
    (isOther : other ∈ method.incoming) (same : one.source = other.source) :
    one.name = other.name := by
  obtain ⟨source, type, rfl⟩ := exists_paramAt isOne
  obtain ⟨_, _, rfl⟩ := exists_paramAt isOther
  cases same
  rfl

/-- An argument is bound to its name. -/
theorem Method.lookup_incoming (arguments : method.incomingNames.Nodup) {param : Param}
    {value : Value} (member : (param, value) ∈ method.incoming.zip args) :
    (method.incomingNames.zip args).lookup param.name = some value := by
  refine lookup_zip arguments (param.name, value) ?_
  rw [incomingNames, List.zip_map_left]
  exact List.mem_map_of_mem member

/-! ## The entry of a method -/

/-- Each parameter gets a value if there are as many arguments. -/
theorem Method.exists_value (fits : args.length = method.incoming.length) {param : Param}
    (member : param ∈ method.incoming) : ∃ value, (param, value) ∈ method.incoming.zip args := by
  obtain ⟨index, bound, rfl⟩ := List.mem_iff_getElem.1 member
  exact ⟨args[index], List.mem_iff_getElem.2 ⟨index, by simp [fits, bound], by simp⟩⟩

/-- Making the control cell leaves the arguments in sight. -/
theorem Job.exec_control {job : Job} {call : String → List Value → Target.Eval Value}
    {env : Target.Env} :
    ∃ later grown, job.control.exec call world env store = .ok (.falls later, grown) ∧
      ∀ name ∈ job.method.incomingNames, later.lookup name = env.lookup name := by
  unfold Job.control
  split
  · refine ⟨(controlCell, .cell store.cells.length) :: env,
      { store with cells := store.cells ++ [.int 0] }, rfl, fun name member => ?_⟩
    refine lookup_cons_of_ne ?_
    rintro rfl
    exact Job.controlCell_notMem_incomingNames member
  · exact ⟨env, store, rfl, fun _ _ => rfl⟩

/-- What a function begins with stands in front of the rest of its body. -/
theorem Job.exists_closed {job : Job} {scope : Scope} {front steps : Script} :
    ∃ rest, job.closed scope (front ++ steps) = (front ++ rest).stmts := by
  unfold Job.closed
  split
  · exact ⟨steps, rfl⟩
  · exact ⟨_, by rw [List.append_assoc]⟩

/-- A method begins with the introductions of its entry. A run comes behind them, and then each
local that the entry introduces with an argument holds it. -/
def Job.Receives (job : Job) (code : MethodCode) : Prop :=
  ∀ (program : Target.Program) world depth args store own, program.Has code.functions →
    program.function? code.name = some own → args.length = job.method.incoming.length →
    ∃ entry scope rest env grown,
      job.introduceEntry .empty job.plan.entry.entries = .ok (entry, scope) ∧
      own.body = (job.control ++ entry ++ rest).stmts ∧
      program.Comes world code.IsLoop (own.start depth args store)
        ⟨depth, rest.stmts, env, grown⟩ ∧
      ∀ introduced ∈ job.plan.entry.entries, ∀ param value,
        job.entryArgument? introduced.1 = some param →
        (param, value) ∈ job.method.incoming.zip args →
          introduced.2.Holds env grown introduced.1 value

/-- The entry of a hygienic method introduces its locals with the arguments that they copy. -/
theorem Job.Hygienic.receives {job : Job} (hygienic : job.Hygienic) {entry rest : Script}
    {scope : Scope}
    (introduces : job.introduceEntry .empty job.plan.entry.entries = .ok (entry, scope))
    (isOwn : ⟨code.name, job.method.incomingNames, (job.control ++ entry ++ rest).stmts⟩ ∈
      code.functions) : job.Receives code := by
  intro program world depth args store own has isFunction fits
  cases isFunction.symm.trans (has _ isOwn)
  obtain ⟨env, between, controls, same⟩ := @Job.exec_control world store job
    (program.call world depth) (job.method.incomingNames.zip args)
  have free (param : Param) (member : param ∈ job.method.incoming) :
      param.name ∉ job.plan.entry.entries.map Prod.fst := by
    intro among
    obtain ⟨⟨name, binding⟩, isEntry, rfl⟩ := List.mem_map.1 among
    exact hygienic.incoming_notMem_locals (List.mem_map_of_mem member)
      (List.mem_append_left _ isEntry)
  have passed (param : Param) (member : param ∈ job.method.incoming) : env.lookup param.name =
      some (((job.method.incomingNames.zip args).lookup param.name).getD .unit) := by
    obtain ⟨value, isValue⟩ := Method.exists_value fits member
    rw [same _ (List.mem_map_of_mem member), Method.lookup_incoming hygienic.arguments isValue]
    rfl
  obtain ⟨later, grown, ran, -, -, holds⟩ :=
    @Job.introduceEntry_holds job .empty _ _ _ introduces (SortedMap.nodup_keys _) free
      (program.call world depth) world env between _ passed
  refine ⟨entry, scope, rest, later, grown, introduces, rfl, ?_, fun introduced member param value
    isArgument isValue => ?_⟩
  · rw [List.append_assoc]
    exact (Script.comes_of_exec controls).trans (Script.comes_of_exec ran)
  · have held := (holds introduced member param isArgument).2
    rwa [Method.lookup_incoming hygienic.arguments isValue] at held

/-! ## Identity instructions -/

/-- What an identity instruction has become stands in the code of its method; it was bound before or
there is an argument for it. Where a run comes to it, the run goes on behind it, and then the local
holds the argument if it was not bound before, or held the argument already. -/
def Job.Copies (job : Job) (later : Agenda) (code : MethodCode) (spot : Spot) (target : String)
    (source : Source) : Prop :=
  ∃ scope lowered own back, job.Lowers later spot scope (.identity target source) lowered own ∧
    (∃ function ∈ code.functions, Stmt.IsRest (lowered.steps ++ back).stmts function.body) ∧
    ((scope.binding? target).isSome = true ∨ job.method.hasSource source = true) ∧
    ∀ (program : Target.Program) world args store place, program.Has code.functions →
      code.ComesTo program world args store place → place.rest = (lowered.steps ++ back).stmts →
      ∀ param value, (param, value) ∈ job.method.incoming.zip args → param.source = source →
        ∃ env grown, code.ComesTo program world args store ⟨place.depth, back.stmts, env, grown⟩ ∧
          (lowered.scope.Holds env grown target value ↔
            scope.binding? target = none ∨ scope.Holds place.env place.store target value)

/-- Behind an identity that copies, the local holds the argument. -/
theorem Job.Stands.copies {job : Job} {later : Agenda} {spot : Spot}
    (made : Lower.method setting id job.method progress = .ok (code, after))
    (arguments : job.method.incomingNames.Nodup)
    (free : ∀ declared ∈ job.method.locals, ¬ IsMadeUp declared.name)
    (stands : job.Stands later spot (.identity target source) code.functions) :
    job.Copies later code spot target source := by
  obtain ⟨scope, lowered, own, lowers, -, function, isFunction, back, isRest, -⟩ := stands
  obtain ⟨begun, ended, ran, -, -⟩ := lowers.ran
  obtain ⟨lowered_iff, holds⟩ := @Job.identity_iff job spot.block scope target source begun
  refine ⟨scope, lowered, own, back, lowers, ⟨function, isFunction, isRest⟩,
    (lowered_iff.1 ⟨lowered, ended, ran⟩).imp_right And.left, ?_⟩
  intro program world args store place has comes isPlace param value passed isSource
  have among := (List.of_mem_zip passed).1
  obtain ⟨first, isFirst⟩ : ∃ first, job.argument? source = some first :=
    Option.isSome_iff_exists.1 (List.find?_isSome.2 ⟨param, among, by simpa using isSource⟩)
  have same : first.name = param.name := Method.name_eq_of_source
    (List.mem_of_find?_eq_some isFirst) among (by simpa [isSource] using List.find?_some isFirst)
  have known : place.env.lookup first.name = some value := by
    rw [same, (comes.knows made arguments free has).same _ (List.mem_map_of_mem among)]
    exact Method.lookup_incoming arguments passed
  obtain ⟨env, grown, goes, holds_iff⟩ := holds lowered ended ran first isFirst
    (program.call world place.depth) world place.env place.store value known
  obtain ⟨method, depth, isMethod, comes⟩ := comes
  refine ⟨env, grown, ⟨method, depth, isMethod, comes.trans ?_⟩, holds_iff⟩
  obtain ⟨depth, rest, env, store⟩ := place
  cases isPlace
  exact Script.comes_of_exec goes

/-! ## Reserved locals -/

/-- The secrets of a local that is reserved for an argument: its cells hold the argument, and its
name, where it is fixed, and that of the argument stand for it. The functions of loops pass the
local on. -/
def Job.entrusted {job : Job} (hygienic : job.Hygienic) (code : MethodCode) (target : String)
    (source : Source) : Secrets where
  cell name := name = target ∧ (target, .mutable) ∈ job.plan.locals
  content name := name = target ∧ (target, .const) ∈ job.plan.locals ∨
    ∃ param ∈ job.method.incoming, param.source = source ∧ param.name = name
  shares name params :=
    ∃ function, code.IsLoop function ∧ function.name = name ∧ function.params = params
  apart := by
    rintro name (⟨rfl, fixed⟩ | ⟨param, among, -, rfl⟩) ⟨same, member⟩
    · cases List.inj_on_of_nodup_map hygienic.once fixed member rfl
    · exact hygienic.incoming_notMem_locals (List.mem_map_of_mem among) (same ▸ member)

/-- Introducing the control cell is confined. -/
theorem Job.Entrusts.confined_control {job : Job} {secrets : Secrets}
    (entrusts : job.Entrusts target source secrets) : Script.Confined secrets job.control := by
  unfold Job.control
  split
  · exact Job.confined_bindCell trivial entrusts.ignores_controlCell
  · exact Script.confined_nil

/-- A call of a method guards the secrets of a local that is reserved for an argument: only the
name of that argument stands for one of them. -/
theorem Job.Entrusts.guards_start {job : Job} {secrets : Secrets}
    (entrusts : job.Entrusts target source secrets) {own : Target.Function} {depth : Nat}
    (params : own.params = job.method.incomingNames)
    (confined : Stmt.AllConfined secrets own.body) {param : Param} {value : Value}
    (passed : (param, value) ∈ job.method.incoming.zip args) (isSource : param.source = source)
    (shown : ∀ arg ∈ args, arg.Public [] store.cells.length) (closed : store.Hides [] value) :
    (own.start depth args store).Guards secrets value [] := by
  refine ⟨confined, fun name arg isArg => ?_, closed⟩
  rw [Target.Function.start, params] at isArg
  dsimp only at isArg
  obtain ⟨front, back, zipped, -⟩ := List.lookup_eq_some_iff.1 isArg
  have entry : (name, arg) ∈ job.method.incomingNames.zip args := by
    rw [zipped]
    simp
  obtain ⟨incoming, isValue⟩ := List.of_mem_zip entry
  refine ⟨fun isCell => absurd isCell (entrusts.confined_incoming incoming), fun isContent => ?_,
    fun _ => shown arg isValue⟩
  obtain ⟨rfl, fixed⟩ | ⟨other, isOther, ofSource, rfl⟩ := (entrusts.content_iff _).1 isContent
  · exact absurd fixed (entrusts.hygienic.incoming_notMem_locals incoming)
  · have same := Method.name_eq_of_source isOther (List.of_mem_zip passed).1
      (ofSource.trans isSource.symm)
    rw [same, Method.lookup_incoming entrusts.hygienic.arguments passed] at isArg
    exact (Option.some.inj isArg).symm

/-- The functions of a method keep the secrets of a local that is reserved for an argument. -/
theorem Lower.confined_method
    (made : Lower.method setting id method progress = .ok (code, after))
    (arguments : method.incomingNames.Nodup)
    (free : ∀ declared ∈ method.locals, ¬ IsMadeUp declared.name) {plan : BindingPlan}
    (isPlan : method.checkedPlan = .ok plan)
    (reserves : method.Reserves setting.model plan target source)
    (argument : ∃ param ∈ method.incoming, param.source = source) :
    ∃ (job : Job) (secrets : Secrets), job.method = method ∧ job.plan = plan ∧
      job.Entrusts target source secrets ∧
      (∀ function, code.IsLoop function → secrets.shares function.name function.params) ∧
      (∀ name params, secrets.shares name params → ∃ function ∈ code.functions,
        function.name = name ∧ function.params = params ∧
          Stmt.AllConfined secrets function.body) ∧
      ∃ own ∈ code.functions, own.name = code.name ∧ own.params = method.incomingNames ∧
        Stmt.AllConfined secrets own.body := by
  obtain ⟨job, graph, found, tree, entry, scope, steps, inside, begun, rfl, rfl, rfl, named, same,
    -, -, -, -, -, introduces, -, -, none, -, lowered, functions, -⟩ := method_runs made
  cases isPlan.symm.trans same
  have hygienic := Job.hygienic_of_checkedPlan isPlan arguments free
  have entrusts : job.Entrusts target source (Job.entrusted hygienic code target source) :=
    ⟨hygienic, reserves, argument, fun _ => .rfl, fun _ => .rfl⟩
  have planned := Job.planned_empty.introduced (fun _ member => List.mem_append_left _ member)
    introduces
  have outside : Job.Shares (Job.entrusted hygienic code target source) scope := by
    intro frame isFrame
    rw [(Job.calls_introduceEntry introduces).1] at isFrame
    cases isFrame
  obtain ⟨-, more, helpers, follows⟩ := @Job.Entrusts.gives_confined_tree job after.agenda _ _ _
    entrusts scope tree begun _ after lowered ⟨.refl _, nofun⟩
  rw [helpers, none, List.nil_append] at functions
  have loopName_eq (head : BlockId) :
      job.loopName head = code.name ++ "__loop_" ++ head.text := by
    rw [Job.loopName, named]
  obtain ⟨ofLoops, confines⟩ := follows ⟨planned, outside, fun function member head isNamed =>
    ⟨function, ⟨functions ▸ List.mem_append_left _ member, head,
      isNamed.trans (loopName_eq head)⟩, rfl, rfl⟩⟩
  have ofOwn : Stmt.AllConfined (Job.entrusted hygienic code target source)
      (job.closed inside (job.control ++ entry ++ steps)) :=
    Job.confined_closed (Script.confined_append.2 ⟨Script.confined_append.2
      ⟨entrusts.confined_control, entrusts.confined_introduceEntry (fun _ => id) introduces⟩,
        confines.steps⟩)
  refine ⟨job, _, rfl, rfl, entrusts, fun function isLoop => ⟨function, isLoop, rfl, rfl⟩, ?_,
    _, functions ▸ List.mem_append_right _ (List.mem_singleton_self _), rfl, rfl, ofOwn⟩
  rintro _ _ ⟨function, ⟨member, head, isNamed⟩, rfl, rfl⟩
  refine ⟨function, member, rfl, rfl, ?_⟩
  rw [functions] at member
  rcases List.mem_append.1 member with member | member
  · exact ofLoops function member head (isNamed.trans (loopName_eq head).symm)
  · rw [List.mem_singleton.1 member]
    exact ofOwn

/-- If the method is called with values that hold no cells but those of the store, a local holds the
argument for a source wherever a run of the method comes and the local is in scope. -/
def Job.Retains (job : Job) (code : MethodCode) (target : String) (binding : Binding)
    (source : Source) : Prop :=
  ∀ (program : Target.Program) (world : World) args (store : Store) place,
    program.Has code.functions → world.Honest → code.ComesTo program world args store place →
    ∀ param value, (param, value) ∈ job.method.incoming.zip args → param.source = source →
      store.Hides [] value → (∀ arg ∈ args, arg.Public [] store.cells.length) →
      ∀ held, place.env.lookup target = some held →
        binding.Holds place.env place.store target value

/-- A local that is reserved for an argument retains it. -/
theorem MethodCode.ComesTo.holds
    (made : Lower.method setting id method progress = .ok (code, after))
    (arguments : method.incomingNames.Nodup)
    (free : ∀ declared ∈ method.locals, ¬ IsMadeUp declared.name) {plan : BindingPlan}
    (isPlan : method.checkedPlan = .ok plan) {binding : Binding}
    (isLocal : (target, binding) ∈ plan.locals)
    (reserves : method.Reserves setting.model plan target source)
    (has : program.Has code.functions) (honest : world.Honest) {param : Param} {value : Value}
    (shown : ∀ arg ∈ args, arg.Public [] store.cells.length) (closed : store.Hides [] value)
    (comes : code.ComesTo program world args store place)
    (passed : (param, value) ∈ method.incoming.zip args) (isSource : param.source = source)
    {held : Value} (inScope : place.env.lookup target = some held) :
    binding.Holds place.env place.store target value := by
  have among := (List.of_mem_zip passed).1
  obtain ⟨job, secrets, rfl, rfl, entrusts, shares, confined, own, member, named, params, ofOwn⟩ :=
    Lower.confined_method made arguments free isPlan reserves ⟨param, among, isSource⟩
  obtain ⟨depth, comes⟩ := comes.of_own has member named
  have keeps : program.Keeps secrets := by
    intro name params isShared
    obtain ⟨function, isFunction, rfl, rfl, ofBody⟩ := confined name params isShared
    exact ⟨function, has function isFunction, rfl, ofBody⟩
  have start : (own.start depth args store).Guards secrets value [] :=
    entrusts.guards_start params ofOwn passed isSource shown closed
  obtain ⟨hidden, guards⟩ := start.comes honest keeps shares comes
  have allows := guards.keeps target held inScope
  cases binding with
  | mutable =>
      obtain ⟨address, isHidden, rfl⟩ := allows.cell ((entrusts.cell_iff _).2 ⟨rfl, isLocal⟩)
      exact ⟨address, inScope, guards.hides.kept address isHidden⟩
  | const =>
      rw [allows.content ((entrusts.content_iff _).2 (.inl ⟨rfl, isLocal⟩))] at inScope
      exact inScope

/-- What the locals of a method hold that arguments are copied into, if the arguments have different
names and no local is named as lowering names things. The locals that the entry introduces with an
argument hold it from the start. Each identity instruction in a block that control may come to
copies its argument, as far as its local was not bound before. A local that the method does nothing
with but copy one argument into it retains the argument. -/
theorem Lower.method_arguments (made : Lower.method setting id method progress = .ok (code, after))
    (arguments : method.incomingNames.Nodup)
    (free : ∀ declared ∈ method.locals, ¬ IsMadeUp declared.name) :
    ∃ job : Job, job.setting = setting ∧ job.id = id ∧ job.method = method ∧
      method.checkedPlan = .ok job.plan ∧ job.Receives code ∧
      (∀ block listed, method.Reaches block → method.block? block = some listed →
        ∀ index target source, listed.instrs[index]? = some (.identity target source) →
          job.Copies after.agenda code ⟨id, block, index⟩ target source) ∧
      ∀ target binding source, (target, binding) ∈ job.plan.locals →
        method.Reserves setting.model job.plan target source →
          job.Retains code target binding source := by
  obtain ⟨job, graph, found, tree, entry, scope, steps, inside, begun, rfl, rfl, rfl, named, isPlan,
    built, -, -, -, isMarked, introduces, -, -, none, -, lowered, functions, -⟩ := method_runs made
  have hygienic := Job.hygienic_of_checkedPlan isPlan arguments free
  refine ⟨job, rfl, rfl, rfl, isPlan, ?_, ?_, ?_⟩
  · obtain ⟨rest, same⟩ := @Job.exists_closed job inside (job.control ++ entry) steps
    have last : ⟨code.name, job.method.incomingNames, job.closed inside
        (job.control ++ entry ++ steps)⟩ ∈ code.functions :=
      functions ▸ List.mem_append_right _ (List.mem_singleton_self _)
    exact hygienic.receives introduces (same ▸ last)
  · intro block listed reaches isBlock index target source isIdentity
    have stands := (Job.standsAll_of_tree built isMarked introduces none lowered functions).2
    exact (stands block listed reaches isBlock index _ isIdentity).copies made arguments free
  · intro target binding source isLocal reserves program world args store place has honest comes
      param value passed isSource closed shown held inScope
    exact comes.holds made arguments free isPlan isLocal reserves has honest shown closed passed
      isSource inScope

/-- What a method that copies its argument into one local becomes. -/
def copiedArgument : MethodCode where
  functions := [⟨"A_copy", ["__in_x"], [.bind (.var "x") (.mkRef (.var "__in_x"))
    [.bind (.var "y") (.mkRef (.int 0)) [.ret (.contentOf "x")]]]⟩]
  name := "A_copy"
  flags := []

/-- A world with the operators on integers, in which nothing refers to a cell. -/
def plainWorld : World := ⟨Lower.countingOperators, fun _ => .unit, .null⟩

/-- The plain operators make no cells. -/
theorem honest_plainWorld : plainWorld.Honest where
  binary op left right result found := by
    cases op with
    | add | lt | eq | or =>
        simp only [Target.BinOp.meaning, plainWorld, Lower.countingOperators] at found
        split at found
        · cases found
          exact List.nil_subset _
        · cases found
    | _ => cases found
  unary op operand result found := by cases op <;> cases found
  stream _ := rfl
  blank := rfl

/-- A method that copies an argument holds it where it returns. -/
theorem Lower.method_arguments_copying : ∃ (after : Progress) (job : Job),
    Lower.method (Job.copyJob []).setting default (Job.copyMethod [("x", .param 0)]) .start =
      .ok (copiedArgument, after) ∧
    job.Copies after.agenda copiedArgument ⟨default, ⟨0⟩, 0⟩ "x" (.param 0) ∧
    ∃ place,
      copiedArgument.ComesTo ⟨copiedArgument.functions, none⟩ plainWorld [.int 7] .start place ∧
      Binding.mutable.Holds place.env place.store "x" (.int 7) := by
  have made : ∃ after, Lower.method (Job.copyJob []).setting default
      (Job.copyMethod [("x", .param 0)]) .start = .ok (copiedArgument, after) := by
    have same := @Job.structured_copyMethod [("x", .param 0)] _ rfl rfl
      (BlockGraph.toStructured_of_loopless rfl rfl rfl rfl rfl)
    unfold Lower.method
    rw [same]
    exact ⟨_, rfl⟩
  obtain ⟨after, made⟩ := made
  obtain ⟨job, -, -, ofMethod, isPlan, -, copies, retains⟩ :=
    Lower.method_arguments made (by decide) (by decide)
  have incoming : job.method.incoming = (Job.copyMethod [("x", .param 0)]).incoming := by
    rw [ofMethod]
  have plan : job.plan = .allCells (Job.copyMethod [("x", .param 0)]).locals :=
    (Except.ok.inj isPlan).symm
  have reserves :
      (Job.copyMethod [("x", .param 0)]).Reserves .mutable job.plan "x" (.param 0) := by
    rw [plan]
    refine ⟨by decide, nofun, fun _ => by decide, fun id block _ introduced => ?_⟩
    cases introduced
  have isLocal : ("x", .mutable) ∈ job.plan.locals := by
    rw [plan]
    decide
  -- The run goes into the body of the binding of the local.
  have comes : copiedArgument.ComesTo ⟨copiedArgument.functions, none⟩ plainWorld [.int 7] .start
      ⟨0, _, _, _⟩ := ⟨_, 0, rfl, .single (.bound rfl rfl)⟩
  have closed : Store.start.Hides [] (.int 7) := ⟨nofun, nofun, nofun⟩
  have holds := retains "x" .mutable (.param 0) isLocal reserves
  unfold Job.Retains at holds
  rw [incoming] at holds
  refine ⟨after, job, made, copies ⟨0⟩ _ .refl rfl 0 "x" (.param 0) rfl, _, comes, ?_⟩
  exact holds _ plainWorld _ _ _ (List.forall_mem_singleton.2 rfl) honest_plainWorld comes _ _
    (List.mem_singleton_self _) rfl closed (List.forall_mem_singleton.2 (.of_none rfl)) _ rfl

end GotoFree
