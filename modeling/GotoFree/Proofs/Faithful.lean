import GotoFree.Proofs.Limits
import GotoFree.Proofs.LoopCode
import GotoFree.Proofs.Names
import GotoFree.Proofs.Nesting
import GotoFree.Proofs.Plans

/-!
# Scalar methods return what their graphs return

The function of a scalar method makes the cells of the locals and runs the code of the marked tree,
which does what a run of the tree does (`Celled.gives_tree`). That returns the values that the graph
returns, so the function does too (`Lower.method_returns_iff`).
-/

namespace GotoFree

open LoopForest
open Target (Completion Ended Env Eval Script Stmt Stop Store Value World)

namespace Job

variable {job : Job} {graph : BlockGraph} {world : World} {cells : Cells} {scope : Scope}
  {body : Option Tree} {final : Progress}

/-! ## Merges -/

section Merges

variable (celled : job.Celled cells scope) (order : cells.order = final.recorded.order)
  (has : job.hasControlCell = true) {label : Label}

include celled order has

/-- The test of an alternative holds if the coordinate recorded last selects it. -/
theorem Celled.answers_alternativeTest {head : BlockId} :
    Lower.Answers (·.UpTo final) (job.alternativeTest label head)
      (Tests cells fun cell => (job.runner graph world).selects label cell head) := by
  unfold alternativeTest
  split
  · next choices noted =>
    split
    · next coords found =>
      refine (answers_flags order coords).andThen fun flags => ?_
      refine (celled.answers_flagTest has _).imp fun test tests flagged => ?_
      intro call others env cell memory seen
      rw [tests call others env cell memory seen]
      have among : cells.flag cell ∈ flags ↔ coords.passes cell = true := flagged.mem_iff
      have same : (cells.flag cell ∈ if head = job.method.entry then 0 :: flags else flags) ↔
          (job.runner graph world).selects label cell head = true := by
        unfold Runner.selects
        simp only [noted, Option.bind_some, found]
        cases cell with
        | none =>
            have other : cells.flag none ∉ flags := by simp [among, CoordSet.passes]
            split <;> simp_all [Cells.flag, runner]
        | some coord =>
            have positive : cells.flag (some coord) ≠ 0 := by
              simp only [Cells.flag]
              omega
            split <;> simp_all [CoordSet.passes]
      simp only [same, Bool.decide_eq_true]
    · exact .reject
  · exact .reject

/-- The conditionals that select among the alternatives of a merge do so as a run does. -/
theorem Celled.gives_alternatives {alternatives : List Tree} {around : Option BlockId}
    (trees : ∀ tree ∈ alternatives, Lower.Gives (·.UpTo final) (job.tree scope tree)
      fun answer made =>
      job.Covers graph world cells scope body (tree.nestings around)
        (fun enter => tree.run (job.runner graph world) enter body) answer.1 made) :
    Lower.Gives (·.UpTo final) (job.alternatives scope label alternatives) fun stmts made =>
      job.Covers graph world cells scope body (Tree.nestingsOfAll around alternatives)
        (fun enter => Tree.runSelected (job.runner graph world) enter body label alternatives)
        (Script.ofStmts stmts) made := by
  induction alternatives with
  | nil =>
      refine .pure ⟨.refl _, fun program depth _ _ env cell memory _ => ?_⟩
      rw [Tree.runSelected]
      exact .stops
  | cons tree rest ih =>
      rw [Job.alternatives]
      refine (@Celled.answers_alternativeTest job graph world cells scope final celled order has
        label tree.head).bind fun test => ?_
      refine (trees tree (by simp)).bind fun answer => ?_
      refine (ih fun other member => trees other (List.mem_cons_of_mem _ member)).bind
        fun others => .pure fun second two first one tests => ?_
      rw [List.append_nil]
      refine ⟨?_, fun program depth resolves rounds => ?_⟩
      · rw [Tree.nestingsOfAll, List.map_append, List.map_append]
        exact one.names.append two.names
      · have selected := one.carriesOut program depth
          (fun function member => resolves function (List.mem_append_left _ member)) rounds
        have other := two.carriesOut program depth
          (fun function member => resolves function (List.mem_append_right _ member)) rounds
        refine (Cells.Behaves.cond (fun env cell memory seen => tests _ _ env cell memory seen)
          selected.nest other).congr fun cell memory => ?_
        dsimp only
        rw [Tree.runSelected]

end Merges

/-! ## Trees -/

section Trees

variable {forest : LoopForest} {around : Option Loop}

/-- The code of a part of the marked tree does what the part does. -/
theorem Celled.gives_tree (isScalar : job.IsScalar graph) (isOf : forest.IsOf graph)
    (areOf : job.flags.AreOf graph forest) (order : cells.order = final.recorded.order)
    {tree : Tree}
    (fits : GotoFree.Fits graph forest (Noted graph forest job.flags.recorded) around tree) :
    forest.Owns around → ∀ {scope : Scope} {body : Option Tree}, job.Celled cells scope →
      (around.isSome = true → scope.loop.isSome = true) →
      Lower.Gives (·.UpTo final) (job.tree scope tree) fun answer made =>
        job.Covers graph world cells scope body (tree.nestings (around.map Loop.head))
          (fun enter => tree.run (job.runner graph world) enter body) answer.1 made := by
  have checked := BlockGraph.checked_ofBlocks isScalar.built
  induction fits with
  | @jump around label part noted direct straight leaves =>
      intro owns scope body celled within
      exact celled.gives_jump order isScalar
        (isOf.blocksOf_known owns (part.inside label.head (by simp))) straight
  | @conditional around label taken notTaken one two part noted direct branching edges takenArm
      notTakenArm takenLeaves notTakenLeaves takenFits notTakenFits takenIh notTakenIh =>
      intro owns scope body celled within
      exact celled.gives_conditional order isScalar
        (isOf.blocksOf_known owns (part.inside label.head (by simp))) branching
        (celled.gives_arm order fun tree same => takenIh tree same owns celled within)
        (celled.gives_arm order fun tree same => notTakenIh tree same owns celled within)
  | @sequence around label first rest part noted chain flat fits ih =>
      intro owns scope body celled within
      have same (enter : Tree → Cell → Memory → Option (Exit Memory Value)) :
          (Tree.sequence label (first :: rest)).run (job.runner graph world) enter body =
            Tree.runElems (job.runner graph world) enter body (first :: rest) := by
        funext cell memory
        rw [Tree.run]
      simp only [Job.tree, Tree.nestings, same]
      refine celled.gives_elems order (fun tree member coords gate => ?_)
        (fun tree member => celled.succeeds_tree isScalar isOf areOf (fits tree member) owns within)
        fun tree member => ih tree member owns celled within
      obtain ⟨coord, recorded⟩ := exists_recorded_of_gate part noted chain tree member coords gate
      exact hasControlCell_of_recorded recorded
  | @loop around label body loop part noted nested head heads whole fits ih =>
      intro owns scope outer celled within
      have ownsBody := owns_some (owns.mem_all (Loop.mem_flattenAll_of_mem nested))
      have inside := celled.insideLoop (job.loopFrame scope label)
      have gives := @ih ownsBody _ (some body) inside fun _ => rfl
      rw [Option.map_some, ← head] at gives
      obtain ⟨recurseOn, returnOn, valued⟩ := noted
      refine celled.gives_loop order isScalar.incoming valued (fun coord member => ?_)
        (fun coord member => ?_)
        (inside.succeeds_tree isScalar isOf areOf fits ownsBody fun _ => rfl) gives
      · rw [recurseOn] at member
        exact recorded_of_exit isOf owns areOf part nested whole (.inl member)
      · rw [returnOn] at member
        exact recorded_of_exit isOf owns areOf part nested whole (.inr member)
  | @merge around label alternatives incoming part noted heads several isEntry incoming_iff leaves
      fits ih =>
      intro owns scope body celled within
      have same (enter : Tree → Cell → Memory → Option (Exit Memory Value)) :
          (Tree.merge label alternatives incoming).run (job.runner graph world) enter body =
            Tree.runSelected (job.runner graph world) enter body label alternatives := by
        funext cell memory
        rw [Tree.run]
      simp only [Job.tree, Tree.nestings, same]
      obtain ⟨coord, recorded⟩ :=
        exists_recorded_of_merge checked isOf owns part noted several incoming_iff
      have has := hasControlCell_of_recorded recorded
      refine (@Celled.gives_alternatives job graph world cells scope body final celled order has
        label alternatives _ fun tree member => ih tree member owns celled within).bind
        fun stmts => .pure fun made covers => ?_
      rw [List.append_nil]
      exact covers

end Trees

/-! ## The entry of a method -/

/-- What a local is introduced with. -/
def firstValue (job : Job) (name : String) : Target.Expr :=
  ((job.method.localType? name).map Ty.default).getD .unit

/-- The first value of a local evaluates to what the graph starts it with. -/
theorem eval_firstValue {call : String → List Value → Eval Value} {name : String} {env : Env}
    {store : Store} : (job.firstValue name).eval call world env store =
      .ok (job.method.memory.locals name, store) := by
  unfold firstValue Method.memory
  dsimp only
  cases job.method.localType? name with
  | none => rfl
  | some type => cases type <;> rfl

/-- Entry locals that are cells and hold no arguments are introduced with the first values of their
types. -/
theorem introduceEntry_of_cells (incoming : job.method.incoming = [])
    {list : List (String × Binding)} (cells : ∀ entry ∈ list,
      entry.2 = .mutable ∧ (job.method.localType? entry.1).isSome = true) :
    ∃ after, job.introduceEntry scope list = .ok
        ((list.map Prod.fst).map fun name => Script.bindCell name (job.firstValue name), after) ∧
      after.loop = scope.loop ∧ ∀ name, after.binding? name =
        if name ∈ list.map Prod.fst then some .mutable else scope.binding? name := by
  induction list generalizing scope with
  | nil => exact ⟨scope, rfl, rfl, by simp⟩
  | cons first rest ih =>
      obtain ⟨name, binding⟩ := first
      obtain ⟨rfl, declared⟩ := cells _ List.mem_cons_self
      obtain ⟨type, isType⟩ := Option.isSome_iff_exists.1 declared
      obtain ⟨after, made, within, bound⟩ := @ih (scope.bind name .mutable) fun entry member =>
        cells entry (List.mem_cons_of_mem _ member)
      dsimp only at isType
      refine ⟨after, ?_, within, fun other => ?_⟩
      · unfold introduceEntry
        simp [incoming, localType, isType, made, firstValue]
      · rw [bound other, Scope.binding?_bind]
        by_cases same : name = other
        · simp [same]
        · simp only [same, if_false, List.map_cons, List.mem_cons, Ne.symm same, false_or]

/-- What names stand for after cells were made for some more of them, from an address on. -/
def cellEnv (env : Env) : Nat → List String → Env
  | _, [] => env
  | address, name :: rest => cellEnv ((name, .cell address) :: env) (address + 1) rest

/-- A name beside those of the cells is looked up behind them. -/
theorem lookup_cellEnv_of_notMem {names : List String} {name : String} (other : name ∉ names)
    {env : Env} {address : Nat} : (cellEnv env address names).lookup name = env.lookup name := by
  induction names generalizing env address with
  | nil => rfl
  | cons first rest ih =>
      rw [cellEnv, ih fun member => other (List.mem_cons_of_mem _ member),
        lookup_cons_of_ne fun same => other (List.mem_cons.2 (.inl same))]

/-- Each name of a cell stands for its address. -/
theorem lookup_cellEnv {names : List String} (distinct : names.Nodup) {name : String}
    (member : name ∈ names) {env : Env} {address : Nat} :
    (cellEnv env address names).lookup name = some (.cell (names.idxOf name + address)) := by
  induction names generalizing env address with
  | nil => cases member
  | cons first rest ih =>
      obtain ⟨fresh, distinctRest⟩ := List.nodup_cons.1 distinct
      rw [cellEnv]
      by_cases same : first = name
      · subst same
        rw [lookup_cellEnv_of_notMem fresh, List.lookup_cons_self, List.idxOf_cons_self,
          Nat.zero_add]
      · rw [ih distinctRest ((List.mem_cons.1 member).resolve_left (Ne.symm same)),
          List.idxOf_cons_ne rest same, Nat.succ_add_eq_add_succ]

/-- Making cells for names. -/
theorem exec_bindCells {call : String → List Value → Eval Value} {names : List String}
    {content : String → Target.Expr} {value : String → Value}
    (evaluates : ∀ name env store, (content name).eval call world env store =
      .ok (value name, store)) {env : Env} {store : Store} :
    Script.exec call world (names.map fun name => Script.bindCell name (content name)) env store =
      .ok (.falls (cellEnv env store.cells.length names),
        { store with cells := store.cells ++ names.map value }) := by
  induction names generalizing env store with
  | nil => simp [Script.exec, cellEnv]
  | cons first rest ih =>
      rw [List.map_cons, Script.bindCell, Script.bindName, Script.exec, bind_apply,
        Target.Expr.eval,
        bind_apply, evaluates, ok_bind, Eval.newCell, bind_apply, get_apply, ok_bind, bind_apply,
        set_apply, ok_bind, pure_apply, ok_bind, Target.Pattern.bound, pure_bind, ih]
      simp [cellEnv]

/-- The step that makes the control cell. -/
def makeControl (job : Job) : Script :=
  if job.hasControlCell then [Script.bindCell controlCell (.int 0)] else []

/-- The entry of a scalar method makes the control cell and the cells of the locals. -/
theorem IsScalar.exists_entry (isScalar : job.IsScalar graph)
    (control : cells.hasControl = job.hasControlCell) (names : cells.names = job.plan.entry.keys) :
    ∃ entry scope, job.introduceEntry .empty job.plan.entry.entries = .ok (entry, scope) ∧
      scope.loop = none ∧ job.Celled cells scope ∧
      (∀ step ∈ job.makeControl ++ entry, ∃ name value, step = Script.bindName name value) ∧
      ∀ call world, ∃ env, cells.Seen env ∧
        Script.exec call world (job.makeControl ++ entry) [] .start =
          .ok (.falls env, cells.store none job.method.memory) := by
  have known (name : String) : name ∈ job.plan.entry.keys ↔
      (job.method.localType? name).isSome = true := by
    rw [isScalar.plan, Method.mem_keys_allCells]
  have mutable (entry : String × Binding) (member : entry ∈ job.plan.entry.entries) :
      entry.2 = .mutable ∧ (job.method.localType? entry.1).isSome = true := by
    have declared := (known entry.1).1 (List.mem_map_of_mem member)
    have found := SortedMap.get?_eq_some_iff.2 member
    rw [isScalar.plan, Method.get?_allCells, if_pos declared] at found
    exact ⟨(Option.some.inj found).symm, declared⟩
  obtain ⟨scope, made, within, bound⟩ :=
    @introduceEntry_of_cells job .empty isScalar.incoming _ mutable
  refine ⟨_, scope, made, within,
    ⟨control, ?_, fun name member => ?_, fun name scalar => ?_⟩, ?_, ?_⟩
  · rw [names]
    refine SortedSet.eq_of_same_members (List.pairwise_map.2 scope.bound.sorted)
      (List.pairwise_map.2 job.plan.entry.sorted) fun name => ?_
    have here := bound name
    rw [Scope.binding?] at here
    rw [Scope.locals, SortedMap.mem_keys_iff, here]
    split
    · next member => exact iff_of_true ⟨_, rfl⟩ member
    · next other => exact iff_of_false (by simp [Scope.empty, Scope.binding?]) other
  · rw [bound]
    exact if_pos (show name ∈ job.plan.entry.keys from names ▸ member)
  · rw [names, known]
    rcases scalar with isInt | isBool
    · rw [isInt, Option.isSome_some]
    · rw [isBool, Option.isSome_some]
  · intro step member
    rcases List.mem_append.1 member with first | local_
    · unfold makeControl at first
      split at first
      · exact ⟨_, _, List.mem_singleton.1 first⟩
      · cases first
    · obtain ⟨name, -, rfl⟩ := List.mem_map.1 local_
      exact ⟨_, _, rfl⟩
  · intro call world
    have constant (name : String) (env : Env) (store : Store) :
        (Target.Expr.int 0).eval call world env store = .ok (.int 0, store) := rfl
    -- The cells of the locals are made behind the control cell.
    obtain ⟨env, seen, started⟩ : ∃ env, (cells.hasControl = true →
          env.lookup controlCell = some (.cell 0)) ∧
        Script.exec call world job.makeControl [] .start =
          .ok (.falls env, ⟨if cells.hasControl then [.int 0] else [], [], 0⟩) := by
      unfold makeControl
      rw [control]
      split
      · exact ⟨[(controlCell, .cell 0)], fun _ => List.lookup_cons_self,
          @exec_bindCells world call [controlCell] _ _ constant _ _⟩
      · next none => exact ⟨[], fun has => absurd has none, rfl⟩
    have length : (if cells.hasControl then [Value.int 0] else []).length = cells.base := by
      unfold Cells.base
      split <;> rfl
    refine ⟨cellEnv env cells.base cells.names, ⟨fun has => ?_, fun name member => ?_⟩, ?_⟩
    · rw [lookup_cellEnv_of_notMem fun member => cells.free _ member isReserved_controlCell,
        seen has]
    · rw [lookup_cellEnv cells.distinct member, Cells.address]
    · rw [Script.exec_append, bind_apply, started, ok_bind, Ended.andThen,
        exec_bindCells fun _ _ _ => eval_firstValue, length, names]
      simp [Cells.store, Cells.flag, names, SortedMap.keys, Method.memory]

/-- The statements of a function whose code starts with bindings go on behind them. -/
theorem execAll_closed {call : String → List Value → Eval Value} {front code : Script}
    (binds : ∀ step ∈ front, ∃ name value, step = Script.bindName name value) {env after : Env}
    {before store : Store}
    (started : Script.exec call world front env before = .ok (.falls after, store)) :
    Stmt.execAll call world env (job.closed scope (front ++ code)) before =
      Stmt.execAll call world after (job.closed scope code) store := by
  have same : Script.isTerminal (front ++ code) = code.isTerminal := by
    unfold Script.isTerminal
    rw [List.getLast?_append]
    cases code.getLast? with
    | some => rfl
    | none =>
        cases last : front.getLast? with
        | none => rfl
        | some step =>
            obtain ⟨name, value, rfl⟩ := binds step (List.mem_of_getLast? last)
            rfl
  unfold closed
  rw [same]
  split
  · rw [Script.execAll_stmts, Script.execAll_stmts, bind_apply, bind_apply, Script.exec_append,
      bind_apply, started]
    rfl
  · rw [Script.execAll_stmts, Script.execAll_stmts, bind_apply, bind_apply, List.append_assoc,
      Script.exec_append, bind_apply, started]
    rfl

end Job

/-! ## Methods -/

/-- A function is found under its name if the names are different. -/
theorem Target.Program.function?_of_nodup {program : Target.Program}
    (distinct : (program.functions.map Target.Function.name).Nodup) {function : Target.Function}
    (member : function ∈ program.functions) :
    program.function? function.name = some function := by
  unfold function?
  generalize program.functions = functions at distinct member
  induction functions with
  | nil => cases member
  | cons first rest ih =>
      obtain ⟨fresh, distinctRest⟩ := List.nodup_cons.1 distinct
      rcases List.mem_cons.1 member with rfl | later
      · simp
      · have other : first.name ≠ function.name := fun same =>
          fresh (same ▸ List.mem_map_of_mem later)
        rw [List.find?_cons_of_neg (by simpa using other)]
        exact ih distinctRest later

theorem Progress.UpTo.refl (progress : Progress) : progress.UpTo progress :=
  ⟨fun _ _ found => found, List.prefix_refl _, List.prefix_refl _⟩

/-- The cells of a job for a scalar method. -/
theorem Job.IsScalar.exists_cells {job : Job} {graph : BlockGraph}
    (isScalar : job.IsScalar graph) (order : List Coord) :
    ∃ cells : Cells, cells.order = order ∧ cells.hasControl = job.hasControlCell ∧
      cells.names = job.plan.entry.keys := by
  refine ⟨⟨order, job.hasControlCell, job.plan.entry.keys, SortedMap.nodup_keys _,
    fun name member => ?_⟩, rfl, rfl, rfl⟩
  rw [isScalar.plan, Method.mem_keys_allCells, Method.isSome_localType?_iff] at member
  obtain ⟨declared, among, rfl⟩ := member
  exact isScalar.method.names declared among

/-- The function of a method itself. -/
def Job.ownFunction (job : Job) (scope : Scope) (code : Script) : Target.Function :=
  ⟨job.function, job.method.incomingNames, job.closed scope code⟩

/-- The functions of a scalar method return the values that its graph returns. -/
theorem Job.IsScalar.returns_iff {job : Job} {graph : BlockGraph} (isScalar : job.IsScalar graph)
    {forest : LoopForest} {tree : Tree} (isOf : forest.IsOf graph)
    (isMarked : IsMarkedTree graph forest tree job.flags) {entry steps : Script}
    {scope after : Scope} (introduces : job.introduceEntry .empty job.plan.entry.entries =
      .ok (entry, scope)) {begun last : Progress} (fresh : begun.helpers = [])
    (made : job.tree scope tree begun = .ok ((steps, after), last)) {program : Target.Program}
    (functions : program.functions =
      last.helpers ++ [job.ownFunction after (job.makeControl ++ entry ++ steps)])
    (starts : program.entry = some job.function) {world : World} {value : Value} :
    program.Returns world value ↔ graph.Returns world job.method.memory value := by
  have checked := BlockGraph.checked_ofBlocks isScalar.built
  have isEntry := Lower.entry_of_built isScalar.built
  obtain ⟨cells, order, control, names⟩ := isScalar.exists_cells last.recorded.order
  obtain ⟨_, _, again, outside, celled, binds, enters⟩ := isScalar.exists_entry control names
  cases introduces.symm.trans again
  have gives : Lower.Gives (·.UpTo last) (job.tree scope tree) fun answer made =>
      job.Covers graph world cells scope none (tree.nestings none)
        (fun enter => tree.run (job.runner graph world) enter none) answer.1 made :=
    Celled.gives_tree isScalar isOf isMarked.areOf order isMarked.fits owns_none celled (by simp)
  obtain ⟨-, loops, isLast, covers⟩ := gives begun _ last made (.refl last)
  rw [fresh, List.nil_append] at isLast
  -- The functions of the loops and the own one are told apart by their names.
  have distinct := @nodup_loopNames job.function _
    (isMarked.fits.nodup_nestings isOf owns_none)
  rw [List.map_map] at distinct
  have apart : (program.functions.map Target.Function.name).Nodup := by
    rw [functions, isLast, List.map_append, List.map_singleton, List.nodup_append']
    refine ⟨covers.names.nodup_iff.2 distinct.1, List.nodup_singleton _, ?_⟩
    rw [List.disjoint_singleton]
    exact fun member => distinct.2 (covers.names.mem_iff.1 member)
  have resolves (function : Target.Function) (member : function ∈ loops) :
      program.function? function.name = some function :=
    Target.Program.function?_of_nodup apart (by simp [functions, isLast, member])
  have own : program.function? job.function =
      some (job.ownFunction after (job.makeControl ++ entry ++ steps)) :=
    @Target.Program.function?_of_nodup program apart
      (job.ownFunction after (job.makeControl ++ entry ++ steps)) (by simp [functions])
  have runs (depth : Nat) : Matches cells.Leaves
      ((job.runner graph world).start depth tree job.method.memory)
      (program.call world (depth + 1) job.function [] .start) := by
    obtain ⟨env, seen, started⟩ := enters (program.call world depth) world
    rw [Target.Program.call, own, expect_some, pure_bind,
      if_pos (by simp [ownFunction, Method.incomingNames, isScalar.incoming]), bind_apply]
    have params : (job.ownFunction after (job.makeControl ++ entry ++ steps)).params.zip
        ([] : List Value) = [] := List.zip_nil_right
    rw [params, ownFunction, execAll_closed binds started]
    refine (matches_closed (covers.carriesOut program depth resolves ?_) seen).andThen ?_
    · rw [outside]
      exact .outside
    · rintro exit ⟨completion, store⟩ ⟨value, rfl, leaves⟩
      exact ⟨_, rfl, leaves⟩
  have start_iff {result : Option Value} {memory : Memory} :=
    @IsMarkedTree.start_iff _ _ graph forest tree (job.runner graph world) checked isOf isMarked
      (serves_exec isScalar.built) (fun _ ran => exists_edge_of_exec isScalar.built ran)
      isEntry.symm job.method.memory result memory
  constructor
  · rintro ⟨name, depth, store, isName, ran⟩
    obtain rfl := Option.some.inj (starts.symm.trans isName)
    cases depth with
    | zero => cases ran
    | succ depth =>
        rcases (runs depth).cases with ⟨exit, result, ended, answers, leaves⟩ | ⟨-, stop, fails⟩
        · cases ran.symm.trans answers
          cases leaves with
          | @ends result _ cell memory same =>
              obtain ⟨known, rfl, count, returned⟩ := start_iff.1 ⟨depth, cell, ended⟩
              obtain rfl := same known rfl
              exact ⟨count, memory, isEntry ▸ returned⟩
        · cases ran.symm.trans fails
  · rintro ⟨count, memory, ran⟩
    obtain ⟨depth, cell, ended⟩ := start_iff.2 ⟨value, rfl, count, ran⟩
    rcases (runs depth).cases with ⟨exit, ⟨answer, store⟩, here, answers, leaves⟩ | ⟨none, -⟩
    · cases ended.symm.trans here
      cases leaves with
      | ends same =>
          obtain rfl := same value rfl
          exact ⟨_, _, _, starts, answers⟩
    · cases ended.symm.trans none

namespace Lower

variable {setting : Setting} {id : MethodId} {method : Method} {graph : BlockGraph}

/-- Every scalar method whose graph is built is lowered. -/
theorem succeeds_method (scalar : method.IsScalar)
    (built : BlockGraph.ofBlocks method.entry method.blocks = .ok graph) :
    Succeeds (Lower.method setting id method) fun _ => True := by
  obtain ⟨forest, tree, flags, isOf, isMarked, structures⟩ := @structured_eq id method graph built
  unfold Lower.method
  refine Succeeds.request.bind fun function _ => ?_
  refine (Succeeds.check (Method.checkedPlan_of_none scalar.plan) rfl).bind ?_
  rintro _ rfl
  rw [structures, bind_assoc]
  refine (Succeeds.forM fun warning _ => .warn).bind fun _ _ => ?_
  rw [pure_bind]
  refine Succeeds.modify.bind fun _ _ => ?_
  have isScalar : Job.IsScalar ⟨setting, id, method, function, .allCells method.locals, flags⟩
      graph := ⟨scalar, rfl, built⟩
  obtain ⟨cells, -, control, names⟩ := isScalar.exists_cells []
  obtain ⟨entry, scope, introduces, -, celled, -, -⟩ := isScalar.exists_entry control names
  refine (Succeeds.check introduces rfl).bind ?_
  rintro _ rfl
  refine (celled.succeeds_tree isScalar isOf isMarked.areOf isMarked.fits owns_none
    (by simp)).bind fun _ _ => Succeeds.get.bind fun _ _ => .pure trivial

/-- A scalar method with a graph is lowered, whatever was lowered before it, and its functions
return exactly the values that the graph returns, with the same operators and the same
nondeterministic values, from the first values of its locals. -/
theorem method_returns_iff (scalar : method.IsScalar)
    (built : BlockGraph.ofBlocks method.entry method.blocks = .ok graph) (progress : Progress) :
    ∃ code after, Lower.method setting id method progress = .ok (code, after) ∧
      ∀ world value, (⟨code.functions, some code.name⟩ : Target.Program).Returns world value ↔
        graph.Returns world method.memory value := by
  obtain ⟨code, after, made, -⟩ := @succeeds_method setting id method graph scalar built progress
  refine ⟨code, after, made, fun world value => ?_⟩
  have checked := BlockGraph.checked_ofBlocks built
  obtain ⟨forest, tree, flags, isOf, isMarked, structures⟩ := @structured_eq id method graph built
  unfold Lower.method at made
  obtain ⟨function, named, -, made⟩ := stepped_bind_iff.1 made
  rw [Method.checkedPlan_of_none scalar.plan, structures, check, pure_bind, bind_assoc] at made
  obtain ⟨_, warned, -, made⟩ := stepped_bind_iff.1 made
  rw [pure_bind] at made
  obtain ⟨_, begun, begins, made⟩ := stepped_bind_iff.1 made
  cases begins
  have isScalar : Job.IsScalar ⟨setting, id, method, function, .allCells method.locals, flags⟩
      graph := ⟨scalar, rfl, built⟩
  obtain ⟨⟨entry, scope⟩, between, introduces, made⟩ := stepped_bind_iff.1 made
  obtain ⟨⟨steps, inside⟩, last, lowered, ends⟩ := stepped_bind_iff.1 made
  cases ends
  obtain ⟨enters, rfl⟩ := check_apply_iff.1 introduces
  exact isScalar.returns_iff isOf isMarked enters rfl lowered rfl rfl

/-- A method that counts to two and returns where it has got. -/
def countingMethod : Method where
  className := "A"
  name := "count"
  isStatic := true
  params := []
  returnType := .int
  locals := [⟨"x", .int⟩]
  entry := ⟨0⟩
  blocks := [
    ⟨⟨0⟩, [.goto], [⟨1⟩]⟩,
    ⟨⟨1⟩, [.branch (.binary .lt (.var "x") (.int 2))], [⟨2⟩, ⟨3⟩]⟩,
    ⟨⟨2⟩, [.assign (.var "x") (.binary .add (.var "x") (.int 1)), .goto], [⟨1⟩]⟩,
    ⟨⟨3⟩, [.ret (some (.var "x"))], []⟩]
  plan := none

/-- The operators on integers that the method uses, and those that lowering relies on. -/
def countingOperators : Target.Operators where
  add
    | .int left, .int right => some (.int (left + right))
    | _, _ => none
  lt
    | .int left, .int right => some (.bool (left < right))
    | _, _ => none
  eq
    | .int left, .int right => some (.bool (left = right))
    | _, _ => none
  or
    | .bool left, .bool right => some (.bool (left || right))
    | _, _ => none
  sub := fun _ _ => none
  mul := fun _ _ => none
  div := fun _ _ => none
  rem := fun _ _ => none
  ne := fun _ _ => none
  le := fun _ _ => none
  gt := fun _ _ => none
  ge := fun _ _ => none
  and := fun _ _ => none
  neg := fun _ => none
  not := fun _ => none
  eq_int := fun _ _ => rfl
  or_bool := fun _ _ => rfl

/-- A counting method returns in the target language what its graph returns. -/
theorem method_returns_iff_counting : ∃ code after,
    Lower.method ⟨⟨[], .empty, default⟩, ⟨.empty, .empty, .empty⟩, .functional⟩ default
        countingMethod .start = .ok (code, after) ∧
      (⟨code.functions, some code.name⟩ : Target.Program).Returns
        ⟨countingOperators, fun _ => .unit, .unit⟩ (.int 2) := by
  have scalar : countingMethod.IsScalar := by
    refine ⟨rfl, rfl, rfl, fun instr member => ?_, by decide⟩
    simp only [countingMethod, Method.instrs, List.flatMap_cons, List.flatMap_nil, List.append_nil,
      List.cons_append, List.nil_append, List.mem_cons, List.not_mem_nil, or_false] at member
    rcases member with rfl | rfl | rfl | rfl | rfl <;>
      simp [Method.IsScalarInstr, Method.IsScalarExpr, Method.IsScalarOperand,
        Method.IsScalarLocal, Operand.var?, countingMethod, Method.localType?]
  have built : BlockGraph.ofBlocks countingMethod.entry countingMethod.blocks = .ok _ := rfl
  obtain ⟨code, after, made, returns⟩ := @method_returns_iff
    ⟨⟨[], .empty, default⟩, ⟨.empty, .empty, .empty⟩, .functional⟩ default _ _ scalar built .start
  exact ⟨code, after, made, (returns _ _).2 ⟨8, _, rfl⟩⟩

end Lower

end GotoFree
