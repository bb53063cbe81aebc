import GotoFree.Proofs.FlagTable
import GotoFree.Proofs.UnshadowedTrees

/-!
# Names in sight in the functions of a method

If no two parameters of a method are copied into one local, then the names in sight in its functions
are made up, each once, and locals, each once; so a name is hidden only where a local has the name
of something that is made up, and none is hidden if no local is named so
(`Lower.method_unshadowed`). Nothing keeps a method from having such a local
(`Lower.method_shadowed_copying`).
-/

namespace GotoFree

open Target (Parted Script)

namespace Job

variable {job : Job} {later : Agenda} {entry : Script} {scope : Scope}
  {names : List String}

theorem orderly_of_checkedPlan (planned : job.method.checkedPlan = .ok job.plan)
    (arguments : job.method.incomingNames.Nodup) : job.Orderly where
  arguments := arguments
  once := by
    obtain ⟨-, once, -⟩ := Method.checkedPlan_eq_ok_iff.1 planned
    rwa [← BindingPlan.map_fst_locals] at once
  declared _ member := Method.declared_of_checkedPlan planned member

theorem hygienic_of_checkedPlan (planned : job.method.checkedPlan = .ok job.plan)
    (arguments : job.method.incomingNames.Nodup)
    (free : ∀ declared ∈ job.method.locals, ¬ IsMadeUp declared.name) : job.Hygienic :=
  { orderly_of_checkedPlan planned arguments with free }

/-- Distinct names that are there from the start of a function are in sight at its start. -/
theorem sees_start (distinct : names.Nodup) (each : ∀ name ∈ names, job.IsOuter name) :
    job.Sees later [] .empty names :=
  Target.Clear.parted ⟨distinct, fun name member => .inl (each name member)⟩

theorem started_empty : job.Started [] .empty := nofun

/-- A method begins with its control cell, if it has one. -/
def control (job : Job) : Script :=
  if job.hasControlCell then [Script.bindCell controlCell (.int 0)] else []

theorem sees_control (orderly : job.Orderly) :
    job.control.Sighted (job.method.TellsApart job.id later) job.method.incomingNames ∧
      job.Sees later [] .empty (Script.opened job.method.incomingNames job.control) := by
  have incoming : ∀ name ∈ job.method.incomingNames, job.IsOuter name := fun name => .inr
  unfold control
  split
  · have both : job.Sees later [] .empty (controlCell :: job.method.incomingNames) :=
      sees_start (List.nodup_cons.2 ⟨controlCell_notMem_incomingNames, orderly.arguments⟩)
        (List.forall_mem_cons.2 ⟨.inl rfl, incoming⟩)
    exact ⟨⟨both.tellsApart orderly started_empty, trivial⟩, both⟩
  · exact ⟨trivial, sees_start orderly.arguments incoming⟩

/-- The locals that are introduced with a method are told from the control cell and the arguments.
-/
theorem sees_entry (orderly : job.Orderly)
    (introduces : job.introduceEntry .empty job.plan.entry.entries = .ok (entry, scope)) :
    job.Started [] scope ∧
      (job.control ++ entry).Sighted (job.method.TellsApart job.id later)
        job.method.incomingNames ∧
      job.Sees later [] scope (Script.opened job.method.incomingNames (job.control ++ entry)) := by
  have listed : ∀ name ∈ job.plan.entry.entries.map Prod.fst, job.IntroducedIn [] name :=
    fun name member => .inl member
  have binds := binds_introduceEntry (SortedMap.nodup_keys _) (fun _ _ => rfl) introduces
  have started : job.Started [] scope := fun name has =>
    (binds.has name has).elim (started_empty name) (listed name)
  obtain ⟨control, seesControl⟩ := @sees_control job later orderly
  obtain ⟨rest, sees⟩ := @Sees.binds job .empty scope later [] [] _ _ _ _ orderly
    started (List.disjoint_nil_right _) binds nofun seesControl
  rw [Script.sighted_append_iff, Script.opened_append]
  exact ⟨started, ⟨control, rest⟩, sees⟩

end Job

/-- If the arguments of a method have different names, its functions tell the names in sight
apart. -/
theorem Lower.method_tellsApart {setting : Setting} {id : MethodId} {method : Method}
    {progress after : Progress} {code : MethodCode}
    (made : Lower.method setting id method progress = .ok (code, after))
    (arguments : method.incomingNames.Nodup) :
    ∀ function ∈ code.functions, function.Sighted (method.TellsApart id after.agenda) ∨
      function.Unshadowed Job.IsDispatchName := by
  obtain ⟨job, graph, found, tree, entry, scope, steps, inside, begun, rfl, rfl, rfl, -, isPlan,
    built, -, isFound, -, isMarked, introduces, -, -, none, -, lowered, functions, -⟩ :=
      method_runs made
  rw [functions]
  have orderly := Job.orderly_of_checkedPlan isPlan arguments
  obtain ⟨started, opening, sees⟩ := @Job.sees_entry job after.agenda _ _ orderly introduces
  obtain ⟨-, more, helpers, leads⟩ := Job.gives_keepsApart_tree orderly built isFound.isOf
    isMarked.fits LoopForest.owns_none [] (List.disjoint_nil_left _) scope begun _ after lowered
      ⟨.refl _, nofun⟩
  obtain ⟨madeApart, clears⟩ := leads started
  rw [helpers, none, List.nil_append]
  refine List.forall_mem_append.2 ⟨madeApart, List.forall_mem_singleton.2 (.inl ⟨?_, ?_⟩)⟩
  · exact (@Job.sees_start job after.agenda _ orderly.arguments fun name => .inr).tellsApart orderly
      Job.started_empty
  · exact Job.sighted_closed
      (Script.sighted_append_iff.2 ⟨opening, (clears.keeps _ sees).1⟩)

/-- Where no local has the name of something that is made up, names that are told apart are
distinct. -/
theorem Method.TellsApart.clear {method : Method} {id : MethodId} {agenda : Agenda}
    {names : List String} (apart : method.TellsApart id agenda names)
    (free : ∀ declared ∈ method.locals, ¬ method.MakesUp id agenda declared.name) :
    Target.Clear (method.IsName id agenda) names := by
  refine Parted.clear apart fun name makesUp declares => ?_
  obtain ⟨declared, member, rfl⟩ := declares
  exact free declared member makesUp

/-- If the arguments of a method have different names, and no local is named as lowering names
things, then no function of the method hides a name. -/
theorem Lower.distinguishes_method {setting : Setting} {id : MethodId} {method : Method}
    {progress after : Progress} {code : MethodCode}
    (made : Lower.method setting id method progress = .ok (code, after))
    (arguments : method.incomingNames.Nodup)
    (free : ∀ declared ∈ method.locals, ¬ method.MakesUp id after.agenda declared.name) :
    ∀ function ∈ code.functions, function.Unshadowed (method.IsName id after.agenda) ∨
      function.Unshadowed Job.IsDispatchName :=
  fun function member => (method_tellsApart made arguments function member).imp_left
    fun sighted => sighted.imp fun _ apart => apart.clear free

/-- If no two parameters of a method are copied into one local, the names in sight in its functions
are made up, each once, and locals, each once. If, besides, no local has a name that is made up for
the method, no function hides a name. -/
theorem Lower.method_unshadowed {setting : Setting} {id : MethodId} {method : Method}
    {progress after : Progress} {code : MethodCode}
    (made : Lower.method setting id method progress = .ok (code, after))
    (few : method.params.length ≤ UInt64.size) (takesApart : method.TakesApart) :
    (∀ function ∈ code.functions, function.Sighted (method.TellsApart id after.agenda) ∨
      function.Unshadowed Job.IsDispatchName) ∧
    ((∀ declared ∈ method.locals, ¬ method.MakesUp id after.agenda declared.name) →
      ∀ function ∈ code.functions, function.Unshadowed (method.IsName id after.agenda) ∨
        function.Unshadowed Job.IsDispatchName) :=
  have arguments := (Method.nodup_incomingNames_iff few).2 takesApart
  ⟨method_tellsApart made arguments, distinguishes_method made arguments⟩

/-- A method copies its parameters into two locals, one more local aside, and leaves a loop in two
ways. -/
def copyingMethod (spare : String) : Method where
  className := "A"
  name := "copy"
  isStatic := true
  params := [.int, .int]
  returnType := .int
  locals := [⟨"x", .int⟩, ⟨"y", .int⟩, ⟨spare, .int⟩]
  entry := ⟨0⟩
  blocks := [
    ⟨⟨0⟩, [.identity "x" (.param 0), .identity "y" (.param 1), .goto], [⟨1⟩]⟩,
    ⟨⟨1⟩, [.branch .nondet], [⟨2⟩, ⟨3⟩]⟩,
    ⟨⟨2⟩, [.branch .nondet], [⟨1⟩, ⟨4⟩]⟩,
    ⟨⟨3⟩, [.assign (.var "x") (.use (.int 1))], [⟨4⟩]⟩,
    ⟨⟨4⟩, [.ret (some (.var "x"))], []⟩]
  plan := none

/-- The parameters of the functions of a method, if it is lowered. -/
def Method.functionParams? (method : Method) : Option (List (List String)) :=
  (Lower.method ⟨⟨[], .empty, default⟩, ⟨.empty, .empty, .empty⟩, .mutable⟩ default method
    .start).toOption.map fun made => made.1.functions.map Target.Function.params

theorem Method.exists_of_functionParams? {method : Method} {params : List (List String)}
    (found : method.functionParams? = some params) : ∃ code after,
      Lower.method ⟨⟨[], .empty, default⟩, ⟨.empty, .empty, .empty⟩, .mutable⟩ default method
        .start = .ok (code, after) ∧ code.functions.map Target.Function.params = params := by
  obtain ⟨⟨code, after⟩, made, same⟩ := Option.map_eq_some_iff.1 found
  refine ⟨code, after, ?_, same⟩
  cases lowers : Lower.method ⟨⟨[], .empty, default⟩, ⟨.empty, .empty, .empty⟩, .mutable⟩ default
      method .start with
  | error failure =>
      rw [lowers] at made
      cases made
  | ok answer =>
      rw [lowers] at made
      exact congrArg Except.ok (Option.some.inj made)

theorem Lower.method_unshadowed_copying : ∃ code after,
    Lower.method ⟨⟨[], .empty, default⟩, ⟨.empty, .empty, .empty⟩, .mutable⟩ default
      (copyingMethod "z") .start = .ok (code, after) ∧
    code.functions.map Target.Function.params =
      [["__ctl", "__in_x", "__in_y", "x", "y", "z"], ["__in_x", "__in_y"]] ∧
    ∀ function ∈ code.functions,
      function.Unshadowed ((copyingMethod "z").IsName default after.agenda) ∨
        function.Unshadowed Job.IsDispatchName := by
  have found : (copyingMethod "z").functionParams? =
      some [["__ctl", "__in_x", "__in_y", "x", "y", "z"], ["__in_x", "__in_y"]] := by
    decide +kernel
  obtain ⟨code, after, made, params⟩ := Method.exists_of_functionParams? found
  have few : (copyingMethod "z").params.length ≤ UInt64.size := by decide
  have takesApart := (Method.nodup_incomingNames_iff few).1 (by decide +kernel)
  have free : ∀ declared ∈ (copyingMethod "z").locals, ¬ IsMadeUp declared.name := by decide
  exact ⟨code, after, made, params, (Lower.method_unshadowed made few takesApart).2
    fun declared member makesUp => free declared member makesUp.isMadeUp⟩

/-- A local may be named like the control cell; then it hides the cell. -/
theorem Lower.method_shadowed_copying : ∃ code after,
    Lower.method ⟨⟨[], .empty, default⟩, ⟨.empty, .empty, .empty⟩, .mutable⟩ default
      (copyingMethod "__ctl") .start = .ok (code, after) ∧
    ∃ function ∈ code.functions,
      function.params = ["__ctl", "__in_x", "__in_y", "__ctl", "x", "y"] := by
  have found : (copyingMethod "__ctl").functionParams? =
      some [["__ctl", "__in_x", "__in_y", "__ctl", "x", "y"], ["__in_x", "__in_y"]] := by
    decide +kernel
  obtain ⟨code, after, made, params⟩ := Method.exists_of_functionParams? found
  exact ⟨code, after, made, List.mem_map.1 (params ▸ by simp)⟩

end GotoFree
