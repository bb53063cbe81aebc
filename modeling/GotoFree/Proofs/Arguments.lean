import GotoFree.Proofs.Cells
import GotoFree.Proofs.Safety

/-!
# Arguments and the locals they are copied into

An identity instruction introduces its local with the argument, but only where the local has no
binding yet; otherwise it does nothing, and the local goes on holding what it held
(`Job.identity_iff`). A local that the entry of the method introduces starts with the argument of
the first parameter whose last copy it is, if there is one (`Job.introduceEntry_holds`).
-/

namespace GotoFree

open Target (Ended Env Eval Script Store Value World)

section Holding

variable {call : String → List Value → Eval Value} {world : World} {env later : Env}
  {store grown : Store} {name : String} {value : Value}

/-- A local of a binding holds a value: a fixed name stands for it, and a cell contains it. -/
def Binding.Holds (binding : Binding) (env : Env) (store : Store) (name : String) (value : Value) :
    Prop :=
  match binding with
  | .const => env.lookup name = some value
  | .mutable => ∃ address, env.lookup name = some (.cell address) ∧
      store.cells[address]? = some value

/-- A local is bound and holds a value. -/
def Scope.Holds (scope : Scope) (env : Env) (store : Store) (name : String) (value : Value) :
    Prop :=
  ∃ binding, scope.binding? name = some binding ∧ binding.Holds env store name value

namespace Binding.Holds

variable {binding : Binding}

/-- A local that holds a value reads as it. -/
theorem eval (holds : binding.Holds env store name value) :
    (binding.valueOf name).eval call world env store = .ok (value, store) := by
  cases binding with
  | const =>
      rw [valueOf, Target.Expr.eval, show env.lookup name = some value from holds]
      rfl
  | mutable =>
      obtain ⟨address, named, contains⟩ := holds
      exact eval_contentOf named contains

/-- A local holds its value while other names are bound and more cells are made. -/
theorem mono (holds : binding.Holds env store name value)
    (same : later.lookup name = env.lookup name) (more : store.cells <+: grown.cells) :
    binding.Holds later grown name value := by
  cases binding with
  | const => exact same.trans holds
  | mutable =>
      obtain ⟨address, named, contains⟩ := holds
      obtain ⟨rest, appended⟩ := more
      refine ⟨address, same.trans named, ?_⟩
      rw [← appended, List.getElem?_append_left (List.getElem?_eq_some_iff.1 contains).1, contains]

end Binding.Holds

/-- A local holds the value that it is introduced with, and nothing else changes. -/
theorem Binding.exec_introduce {binding : Binding} {content : Target.Expr}
    (evaluates : content.eval call world env store = .ok (value, store)) :
    ∃ held grown, Script.exec call world [binding.introduce name content] env store =
        .ok (.falls ((name, held) :: env), grown) ∧ store.cells <+: grown.cells ∧
      binding.Holds ((name, held) :: env) grown name value := by
  cases binding with
  | const =>
      refine ⟨value, store, ?_, List.prefix_refl _, List.lookup_cons_self⟩
      rw [introduce, Script.bindName, Script.exec, bind_apply, evaluates]
      rfl
  | mutable =>
      refine ⟨.cell store.cells.length, { store with cells := store.cells ++ [value] }, ?_,
        List.prefix_append _ _, _, List.lookup_cons_self, by simp⟩
      rw [introduce, Script.bindCell, Script.bindName, Script.exec, bind_apply, Target.Expr.eval,
        bind_apply, evaluates]
      rfl

end Holding

/-- A graph without loops is structured in one go. -/
theorem BlockGraph.toStructured_of_loopless {graph : BlockGraph} {view : Region.View} {root : Tree}
    (loopless : LoopForest.ofGraph graph = .ok ⟨[]⟩)
    (views : (Region.ofMethod graph ⟨[]⟩).view graph = .ok view)
    (placed : Site.tree ⟨graph, ⟨[]⟩, view, []⟩ = .ok root)
    (whole : graph.ids.filter (fun id => id ∉ root.blocks) = [])
    (stays : root.jumps.leavesLoop = false) :
    graph.toStructured = .ok ⟨root, .empty, ⟨[]⟩⟩ := by
  unfold BlockGraph.toStructured
  simp only [loopless, views, placed, whole, stays, Loop.toTrees, liftDefect, ok_bind, pure_eq_ok]
  rfl

namespace Job

variable {job : Job} {id : BlockId} {scope : Scope} {target : String} {source : Source}

/-- The argument for a source. -/
def argument? (job : Job) (source : Source) : Option Param :=
  job.method.incoming.find? fun param => param.source = source

/-- The argument for a source is looked up where the method has that source, at no cost. -/
theorem nameOfSource_eq_ok_iff {instr : Instr} {progress after : Progress} {name : String} :
    job.nameOfSource source instr progress = .ok (name, after) ↔
      job.method.hasSource source = true ∧ after = progress ∧
        ∃ param, job.argument? source = some param ∧ param.name = name := by
  unfold nameOfSource argument?
  split
  · next has =>
    cases found : job.method.incoming.find? fun param => param.source = source with
    | none => exact iff_of_false nofun (by simp)
    | some param => simp [has, eq_comm, and_comm]
  · next none => exact iff_of_false nofun fun found => none found.1

/-- A source that the method has stands for an argument. -/
theorem exists_argument (has : job.method.hasSource source = true) :
    ∃ param, job.argument? source = some param := by
  obtain ⟨param, member, isSource⟩ := exists_param has
  exact Option.isSome_iff_exists.1 (List.find?_isSome.2 ⟨param, member, by simpa using isSource⟩)

/-- An identity instruction does nothing where its local is bound, and introduces its local with the
argument where that is left to the first value. -/
theorem identity_eq_ok_iff {progress after : Progress} {lowered : Lowered} :
    job.instr id scope (.identity target source) progress = .ok (lowered, after) ↔
      after = progress ∧
        ((scope.binding? target).isSome = true ∧ lowered = .plain ([], scope) ∨
          scope.binding? target = none ∧ job.method.hasSource source = true ∧
            ∃ param binding, job.argument? source = some param ∧
              scope.postponed? target = some binding ∧
              lowered = .plain
                ([binding.introduce target (.var param.name)], scope.bind target binding)) := by
  unfold instr
  dsimp only
  cases bound : scope.binding? target with
  | some binding =>
      rw [if_pos (by rfl), pure_apply, Except.ok.injEq, Prod.mk.injEq]
      simp only [Option.isSome_some, true_and, reduceCtorEq, false_and, or_false]
      exact ⟨fun same => ⟨same.2.symm, same.1.symm⟩, fun same => ⟨same.2.symm, same.1.symm⟩⟩
  | none =>
      rw [if_neg (by simp), stepped_bind_iff]
      simp only [Option.isSome_none, Bool.false_eq_true, false_and, false_or, true_and]
      constructor
      · rintro ⟨name, between, named, rest⟩
        obtain ⟨answer, last, stored, made⟩ := stepped_bind_iff.1 rest
        obtain ⟨has, rfl, param, isParam, rfl⟩ := nameOfSource_eq_ok_iff.1 named
        obtain ⟨stored, rfl⟩ := Lower.check_apply_iff.1 stored
        unfold store at stored
        rw [bound] at stored
        cases postponed : scope.postponed? target with
        | none =>
            rw [postponed] at stored
            cases stored
        | some binding =>
            rw [postponed] at stored
            cases stored
            cases made
            exact ⟨rfl, has, param, binding, isParam, rfl, rfl⟩
      · rintro ⟨rfl, has, param, binding, isParam, postponed, rfl⟩
        refine ⟨_, _, nameOfSource_eq_ok_iff.2 ⟨has, rfl, param, isParam, rfl⟩,
          stepped_bind_iff.2 ⟨_, _, Lower.check_apply_iff.2 ⟨?_, rfl⟩, rfl⟩⟩
        simp [store, bound, postponed]

/-- An identity instruction is lowered if its local is bound already, or is left to its first value
and there is an argument for it. After it the local holds the argument if it was not bound before,
or held the argument already. -/
theorem identity_iff {progress : Progress} :
    ((∃ lowered after, job.instr id scope (.identity target source) progress =
        .ok (lowered, after)) ↔
      (scope.binding? target).isSome = true ∨
        job.method.hasSource source = true ∧ (scope.postponed? target).isSome = true) ∧
    ∀ lowered after, job.instr id scope (.identity target source) progress = .ok (lowered, after) →
      ∀ param, job.argument? source = some param →
      ∀ call world env store value, env.lookup param.name = some value →
        ∃ env' store', lowered.steps.exec call world env store = .ok (.falls env', store') ∧
          (lowered.scope.Holds env' store' target value ↔
            scope.binding? target = none ∨ scope.Holds env store target value) := by
  constructor
  · constructor
    · rintro ⟨lowered, after, made⟩
      obtain ⟨-, ⟨bound, -⟩ | ⟨-, has, _, binding, -, postponed, -⟩⟩ := identity_eq_ok_iff.1 made
      · exact .inl bound
      · exact .inr ⟨has, by simp [postponed]⟩
    · intro found
      cases bound : scope.binding? target with
      | some => exact ⟨_, _, identity_eq_ok_iff.2 ⟨rfl, .inl ⟨by simp [bound], rfl⟩⟩⟩
      | none =>
          rw [bound, Option.isSome_none] at found
          obtain ⟨has, postponed⟩ := found.resolve_left Bool.false_ne_true
          obtain ⟨param, isParam⟩ := exists_argument has
          obtain ⟨binding, isBinding⟩ := Option.isSome_iff_exists.1 postponed
          exact ⟨_, _, identity_eq_ok_iff.2
            ⟨rfl, .inr ⟨bound, has, param, binding, isParam, isBinding, rfl⟩⟩⟩
  · intro lowered after made param isParam call world env store value passed
    obtain ⟨-, ⟨bound, rfl⟩ | ⟨unbound, has, found, binding, isFound, postponed, rfl⟩⟩ :=
      identity_eq_ok_iff.1 made
    · obtain ⟨binding, isBound⟩ := Option.isSome_iff_exists.1 bound
      exact ⟨env, store, rfl, by simp [Lowered.plain, isBound]⟩
    · cases isFound.symm.trans isParam
      have evaluates : (Target.Expr.var param.name).eval call world env store =
          .ok (value, store) := by
        rw [Target.Expr.eval, passed]
        rfl
      obtain ⟨held, grown, ran, -, holds⟩ := binding.exec_introduce evaluates
      exact ⟨_, grown, ran, iff_of_true
        ⟨binding, by simp [Lowered.plain, Scope.binding?_bind], holds⟩ (.inl unbound)⟩

/-- A method with one parameter that copies some sources and returns a local. -/
def copyMethod (copies : List (String × Source)) : Method where
  className := "A"
  name := "copy"
  isStatic := true
  params := [.int]
  returnType := .int
  locals := [⟨"x", .int⟩, ⟨"y", .int⟩]
  entry := ⟨0⟩
  blocks := [⟨⟨0⟩, copies.map (fun (target, source) => .identity target source) ++
    [.ret (some (.var "x"))], []⟩]
  plan := none

/-- The method while it is lowered. -/
def copyJob (copies : List (String × Source)) : Job where
  setting := ⟨⟨[], .empty, default⟩, ⟨.empty, .empty, .empty⟩, .mutable⟩
  id := default
  method := copyMethod copies
  function := "A_copy"
  plan := ⟨.empty, .empty⟩
  flags := .none

/-- The tree of a method that is one returning block. -/
def returningBlock : Tree := .jump ⟨⟨0⟩, .ofReturn ⟨⟨0⟩, .exit⟩, .none⟩ ⟨⟨0⟩, .exit⟩

/-- A method that copies some arguments and returns is structured as one jump. -/
theorem structured_copyMethod {copies : List (String × Source)} {graph : BlockGraph}
    (built : BlockGraph.ofBlocks ⟨0⟩ (copyMethod copies).blocks = .ok graph)
    (fair : graph.warnings = [])
    (structures : graph.toStructured = .ok ⟨returningBlock, .empty, ⟨[]⟩⟩) :
    Lower.structured default (copyMethod copies) = pure (returningBlock, .none) := by
  unfold Lower.structured
  rw [show BlockGraph.ofBlocks (copyMethod copies).entry (copyMethod copies).blocks = .ok graph
    from built]
  dsimp only
  rw [fair, structures]
  rfl

/-- What a method that copies its argument into two locals becomes: the first one is a cell that
holds 0. -/
def copiedOnce : MethodCode where
  functions := [⟨"A_copy", ["__in_y"], [.bind (.var "x") (.mkRef (.int 0))
    [.bind (.var "y") (.mkRef (.var "__in_y")) [.ret (.contentOf "x")]]]⟩]
  name := "A_copy"
  flags := []

/-- The local of the first of two copies of one argument does not get the argument, and a method
with a copy of a parameter that it does not have is lowered. -/
theorem not_argument_copyMethod :
    (∃ after, Lower.method (copyJob []).setting default
        (copyMethod [("x", .param 0), ("y", .param 0)]) .start = .ok (copiedOnce, after) ∧
      ∀ world, ∃ store, (⟨copiedOnce.functions, none⟩ : Target.Program).call world 1 "A_copy"
        [.int 7] .start = .ok (.int 0, store)) ∧
    ∃ code after, Lower.method (copyJob []).setting default (copyMethod [("x", .param 5)]) .start =
      .ok (code, after) := by
  constructor
  · have same := @structured_copyMethod [("x", .param 0), ("y", .param 0)] _ rfl rfl
      (BlockGraph.toStructured_of_loopless rfl rfl rfl rfl rfl)
    unfold Lower.method
    rw [same]
    exact ⟨_, rfl, fun world => ⟨_, rfl⟩⟩
  · have same := @structured_copyMethod [("x", .param 5)] _ rfl rfl
      (BlockGraph.toStructured_of_loopless rfl rfl rfl rfl rfl)
    unfold Lower.method
    rw [same]
    exact ⟨_, _, rfl⟩

/-! ## The entry of a method -/

/-- The argument that a local of a plan's entry is introduced with: that of the first parameter
whose last identity instruction copies it into the local. -/
def entryArgument? (job : Job) (name : String) : Option Param :=
  job.method.incoming.find? fun param => param.target = some name

/-- The entry of a method introduces locals with the arguments that are theirs. -/
theorem introduceEntry_holds {list : List (String × Binding)} {steps : Script} {after : Scope}
    (made : job.introduceEntry scope list = .ok (steps, after))
    (distinct : (list.map Prod.fst).Nodup)
    (free : ∀ param ∈ job.method.incoming, param.name ∉ list.map Prod.fst)
    {call : String → List Value → Eval Value} {world : World} {env : Env} {store : Store}
    {given : Param → Value}
    (passed : ∀ param ∈ job.method.incoming, env.lookup param.name = some (given param)) :
    ∃ later grown, steps.exec call world env store = .ok (.falls later, grown) ∧
      store.cells <+: grown.cells ∧
      (∀ name ∉ list.map Prod.fst, later.lookup name = env.lookup name ∧
        after.binding? name = scope.binding? name) ∧
      ∀ entry ∈ list, ∀ param, job.entryArgument? entry.1 = some param →
        after.binding? entry.1 = some entry.2 ∧
          entry.2.Holds later grown entry.1 (given param) := by
  induction list generalizing scope steps env store with
  | nil =>
      cases made
      exact ⟨env, store, rfl, List.prefix_refl _, fun _ _ => ⟨rfl, rfl⟩, by simp⟩
  | cons first rest ih =>
      obtain ⟨name, binding⟩ := first
      obtain ⟨fresh, distinctRest⟩ := List.nodup_cons.1 distinct
      have freeRest (param : Param) (member : param ∈ job.method.incoming) :
          param.name ∉ rest.map Prod.fst := fun among =>
        free param member (List.mem_cons_of_mem _ among)
      -- What the first local is introduced with stays while the other ones are introduced.
      have introduced {own : Binding} {content : Target.Expr} {value : Value} {others : Script}
          (evaluates : content.eval call world env store = .ok (value, store))
          (rest_ : job.introduceEntry (scope.bind name own) rest = .ok (others, after)) :
          ∃ later grown, Script.exec call world (own.introduce name content :: others) env store =
              .ok (.falls later, grown) ∧ store.cells <+: grown.cells ∧
            (∀ other ∉ name :: rest.map Prod.fst, later.lookup other = env.lookup other ∧
              after.binding? other = scope.binding? other) ∧
            (after.binding? name = some own ∧ own.Holds later grown name value) ∧
            ∀ entry ∈ rest, ∀ param, job.entryArgument? entry.1 = some param →
              after.binding? entry.1 = some entry.2 ∧
                entry.2.Holds later grown entry.1 (given param) := by
        obtain ⟨held, between, ran, more, holds⟩ := own.exec_introduce evaluates
        have stillPassed (param : Param) (member : param ∈ job.method.incoming) :
            List.lookup param.name ((name, held) :: env) = some (given param) := by
          rw [lookup_cons_of_ne fun same => free param member (by simp [same])]
          exact passed param member
        obtain ⟨later, grown, ranRest, moreRest, same, holdsRest⟩ :=
          ih rest_ distinctRest freeRest stillPassed
        refine ⟨later, grown, ?_, more.trans moreRest, fun other outside => ?_, ⟨?_, ?_⟩, holdsRest⟩
        · rw [← List.singleton_append, Script.exec_append, bind_apply, ran]
          exact ranRest
        · rw [List.mem_cons, not_or] at outside
          obtain ⟨named, bound⟩ := same other outside.2
          rw [named, lookup_cons_of_ne outside.1, bound, Scope.binding?_bind,
            if_neg (Ne.symm outside.1)]
          exact ⟨rfl, rfl⟩
        · rw [(same name fresh).2, Scope.binding?_bind, if_pos rfl]
        · exact holds.mono (same name fresh).1 moreRest
      unfold introduceEntry at made
      split at made
      · next param argument =>
        obtain ⟨⟨others, last⟩, goes, ends⟩ := bind_eq_ok_iff.1 made
        cases ends
        have member := List.mem_of_find?_eq_some argument
        have evaluates : (Target.Expr.var param.name).eval call world env store =
            .ok (given param, store) := by
          rw [Target.Expr.eval, passed param member]
          rfl
        obtain ⟨later, grown, ran, more, same, held, holds⟩ := introduced evaluates goes
        refine ⟨later, grown, ran, more, same, fun entry among other isOther => ?_⟩
        rcases List.mem_cons.1 among with rfl | among
        · cases argument.symm.trans isOther
          exact held
        · exact holds entry among other isOther
      · next none =>
        obtain ⟨type, isType, made⟩ := bind_eq_ok_iff.1 made
        obtain ⟨⟨others, last⟩, goes, ends⟩ := bind_eq_ok_iff.1 made
        cases ends
        obtain ⟨value, evaluates⟩ : ∃ value,
            type.default.eval call world env store = .ok (value, store) := by
          cases type <;> exact ⟨_, rfl⟩
        obtain ⟨later, grown, ran, more, same, held, holds⟩ :=
          @introduced .mutable _ _ _ evaluates goes
        refine ⟨later, grown, ran, more, same, fun entry among other isOther => ?_⟩
        rcases List.mem_cons.1 among with rfl | among
        · cases none.symm.trans isOther
        · exact holds entry among other isOther
      · next none =>
        obtain ⟨later, grown, ran, more, same, holds⟩ := ih made distinctRest freeRest passed
        refine ⟨later, grown, ran, more, fun other outside => ?_,
          fun entry among other isOther => ?_⟩
        · exact same other fun among => outside (List.mem_cons_of_mem _ among)
        · rcases List.mem_cons.1 among with rfl | among
          · cases none.symm.trans isOther
          · exact holds entry among other isOther

end Job

end GotoFree
