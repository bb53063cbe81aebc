import GotoFree.Proofs.FunctionNames
import GotoFree.Proofs.Plans
import GotoFree.Proofs.ScopedTrees

/-!
# Scoped programs

The functions of a lowered program are scoped, each with its signature: what a function uses is a
parameter or bound around it, and what it reads as a cell or writes to is a cell there
(`Program.lower_scoped`). The only parameters for cells are those of the functions of loops, which
are called with the names of cells.
-/

namespace GotoFree

open Target (Kinds Script Signature)

/-! ## Methods -/

/-- Functions of some methods are scoped with their signatures, together with the functions of all
methods that have names. -/
structure Agenda.Scopes (agenda : Agenda) (model : ObjectModel) (names : List String)
    (own : List Signature) (functions : List Target.Function) : Prop where
  methods : ∀ name ∈ names, ∃ signature ∈ own, signature.name = name ∧ signature.IsPlain
  plain : ∀ signature ∈ own, signature.IsPlain ∨
    ∃ name ∈ names, ∃ head : BlockId, signature.name = name ++ "__loop_" ++ head.text
  inScope : ∀ signatures, agenda.Signs signatures → own ⊆ signatures →
    List.Forall₂ (Target.Function.Scoped model.slotKind signatures) own functions

namespace Agenda.Scopes

variable {agenda later : Agenda} {model : ObjectModel} {names others : List String}
  {own more : List Signature} {functions rest : List Target.Function}

theorem nil : agenda.Scopes model [] [] [] :=
  ⟨nofun, nofun, fun _ _ _ => .nil⟩

/-- The functions of two lists are scoped together. -/
theorem append (first : agenda.Scopes model names own functions)
    (second : agenda.Scopes model others more rest) :
    agenda.Scopes model (names ++ others) (own ++ more) (functions ++ rest) := by
  refine ⟨List.forall_mem_append.2 ⟨fun name member => ?_, fun name member => ?_⟩,
    List.forall_mem_append.2 ⟨fun signature member => ?_, fun signature member => ?_⟩,
    fun signatures signs known => ?_⟩
  · obtain ⟨signature, isOwn, named⟩ := first.methods name member
    exact ⟨signature, List.mem_append_left _ isOwn, named⟩
  · obtain ⟨signature, isOwn, named⟩ := second.methods name member
    exact ⟨signature, List.mem_append_right _ isOwn, named⟩
  · refine (first.plain signature member).imp_right ?_
    rintro ⟨name, among, isLoop⟩
    exact ⟨name, List.mem_append_left _ among, isLoop⟩
  · refine (second.plain signature member).imp_right ?_
    rintro ⟨name, among, isLoop⟩
    exact ⟨name, List.mem_append_right _ among, isLoop⟩
  · rw [List.append_subset] at known
    exact List.rel_append (first.inScope signatures signs known.1)
      (second.inScope signatures signs known.2)

/-- Functions that are scoped stay so while methods get names. -/
theorem mono (scopes : agenda.Scopes model names own functions) (keeps : agenda.Keeps later) :
    later.Scopes model names own functions := by
  refine ⟨scopes.methods, scopes.plain, fun signatures signs known => ?_⟩
  refine scopes.inScope signatures (fun name named => signs name ?_) known
  obtain ⟨id, isNamed⟩ := named
  exact ⟨id, keeps.names id name isNamed⟩

end Agenda.Scopes

namespace Job

variable {job : Job}

/-- The names of a method's function before its plan's locals are introduced. -/
theorem fits_control {signatures : List Signature} :
    let control : Script :=
      if job.hasControlCell then [Script.bindCell controlCell (.int 0)] else []
    job.Fits signatures job.method.incomingNames control ∧
      job.loopParams .empty ⊆ Script.opened job.method.incomingNames control := by
  have locals : Scope.empty.locals = [] := rfl
  intro control
  constructor
  · unfold control
    split
    · exact Script.fits_bindCell .int kinds_control
    · trivial
  · rw [loopParams, locals, List.append_nil]
    unfold control
    split
    · exact List.Subset.refl _
    · exact List.Subset.refl _

/-- A plan that has been checked is fair, if no local has a reserved name. -/
theorem fair_of_checkedPlan (planned : job.method.checkedPlan = .ok job.plan)
    (free : ∀ declared ∈ job.method.locals, ¬ IsReserved declared.name)
    (roomy : job.setting.layout.Roomy)
    (tagged : ∀ className width, job.setting.layout.width? className = some width → 0 < width) :
    job.Fair := by
  obtain ⟨-, once, declared⟩ := Method.checkedPlan_eq_ok_iff.1 planned
  rw [← BindingPlan.map_fst_locals] at once declared
  refine ⟨once, fun entry member => ?_, roomy, tagged⟩
  obtain ⟨found, isLocal, same⟩ :=
    Method.isSome_localType?_iff.1 (declared _ (List.mem_map_of_mem member))
  exact same ▸ free found isLocal

end Job

/-- The functions of a method are scoped. -/
theorem Lower.scopes_method {setting : Setting} {id : MethodId} {method : Method}
    {progress after : Progress} {code : MethodCode}
    (isMethod : setting.program.method? id = some method) (roomy : setting.layout.Roomy)
    (tagged : ∀ className width, setting.layout.width? className = some width → 0 < width)
    (free : ∀ declared ∈ method.locals, ¬ IsReserved declared.name)
    (made : Lower.method setting id method progress = .ok (code, after)) :
    progress.agenda.Leads setting.program after.agenda ∧
      after.agenda.nameOf? id = some code.name ∧
      ∃ own, after.agenda.Scopes setting.model [code.name] own code.functions := by
  obtain ⟨job, graph, forest, tree, entry, scope, steps, inside, begun, rfl, rfl, rfl, named,
    planned, built, isOf, isMarked, introduces, leads, helpers, isNamed, lowered, functions⟩ :=
      method_cases isMethod made
  have fair := job.fair_of_checkedPlan planned free roomy tagged
  have checked := BlockGraph.checked_ofBlocks built
  have opening := Job.introduces_introduceEntry fair Job.planned_empty
    (List.subset_append_left _ _) introduces
  obtain ⟨within, more, isLast, goes⟩ :=
    Job.gives_leads_tree checked isOf isMarked.areOf fair isMarked.fits LoopForest.owns_none scope
      begun _ after lowered ⟨.refl after.agenda, nofun⟩
  obtain ⟨isPlanned, loop, own, plain, keeps⟩ := goes opening.planned
  have isPlain : Signature.IsPlain ⟨code.name, job.kinds.of job.method.incomingNames⟩ := by
    intro entry member
    obtain ⟨name, incoming, rfl⟩ := List.mem_map.1 member
    exact fair.kinds_incoming incoming
  refine ⟨leads.trans within.leads, within.leads.names _ _ isNamed,
    own ++ [⟨code.name, job.kinds.of job.method.incomingNames⟩], ?_, ?_, ?_⟩
  · exact List.forall_mem_singleton.2
      ⟨_, List.mem_append_right _ (List.mem_singleton_self _), rfl, isPlain⟩
  · refine List.forall_mem_append.2 ⟨fun signature member => ?_, List.forall_mem_singleton.2 ?_⟩
    · refine (plain signature member).imp_right ?_
      rintro ⟨head, isLoop⟩
      exact ⟨code.name, List.mem_singleton_self _, head, by rw [isLoop, Job.loopName, named]⟩
    · exact .inl isPlain
  · intro signatures signs known
    rw [List.append_subset] at known
    have outside : scope.loop = none := opening.loop
    obtain ⟨bodies, carries⟩ :=
      keeps signatures ⟨signs, by rw [outside]; exact nofun⟩ known.1
    rw [functions, isLast, helpers, List.nil_append]
    refine List.rel_append bodies (.cons ⟨rfl, ?_, Job.admits_closed ?_⟩ .nil)
    · simp [Kinds.of, Function.comp_def]
    · obtain ⟨control, shown⟩ := @Job.fits_control job signatures
      obtain ⟨fitsEntry, shownEntry⟩ := opening.carries signatures _ shown
      rw [List.append_assoc]
      exact Script.fits_append_iff.2 ⟨control,
        Script.fits_append_iff.2 ⟨fitsEntry, (carries _ shownEntry).1⟩⟩

/-! ## Programs -/

/-- The functions of all methods are scoped. -/
theorem Agenda.exists_scopes {agenda : Agenda} {model : ObjectModel} {codes : List MethodCode}
    (each : ∀ code ∈ codes, ∃ own, agenda.Scopes model [code.name] own code.functions) :
    ∃ own, agenda.Scopes model (codes.map MethodCode.name) own
      (codes.flatMap MethodCode.functions) := by
  induction codes with
  | nil => exact ⟨[], .nil⟩
  | cons first rest ih =>
      obtain ⟨own, scopes⟩ := each first (by simp)
      obtain ⟨more, others⟩ := ih fun code member => each code (List.mem_cons_of_mem _ member)
      exact ⟨own ++ more, scopes.append others⟩

/-- Where no local has a name with two underscores in front, every function of a lowered program is
scoped: each name that it uses is a parameter or bound around it, and each name that it reads as a
cell or writes to is a cell there, namely a name that is bound to a new cell, a slot of an object in
the mutable model, or a parameter of a loop's function, which is called with the name of a cell. -/
theorem Program.lower_scoped {program : Program} {model : ObjectModel} {entry : Option MethodId}
    {lowered : LoweredProgram} (lowers : program.lower model entry = .ok lowered)
    (free : ∀ id method, program.method? id = some method →
      ∀ declared ∈ method.locals, ¬ IsReserved declared.name) :
    ∃ signatures : List Signature,
      List.Forall₂ (Target.Function.Scoped model.slotKind signatures) signatures
        lowered.program.functions ∧
      ∀ signature ∈ signatures, signature.IsPlain ∨
        ∃ function ∈ lowered.flags.map Prod.fst, ∃ head : BlockId,
          signature.name = function ++ "__loop_" ++ head.text := by
  obtain ⟨prepared, layout, last, chosen, isLayout, ran⟩ := lower_eq_ok_iff.1 lowers
  obtain ⟨ids, codes, sound, empty, scoped_, functions, flags⟩ :=
    @Lower.forall₂_program ⟨prepared, layout, model⟩
      (fun agenda id code => agenda.nameOf? id = some code.name ∧
        ∃ own, agenda.Scopes model [code.name] own code.functions)
      (fun agenda later id code keeps good => by
        obtain ⟨isNamed, own, scopes⟩ := good
        exact ⟨keeps.names id _ isNamed, own, scopes.mono keeps⟩)
      (fun id method progress code after isMethod made => by
        obtain ⟨original, isOriginal, same⟩ := method_of_withoutArguments chosen isMethod
        have locals : method.locals ⊆ original.locals := by
          obtain rfl | rfl := same
          · exact List.Subset.refl _
          · exact Method.locals_withoutArguments
        exact Lower.scopes_method isMethod (Layout.roomy_ofProgram isLayout)
          (fun _ _ => Layout.width_pos_of_ofProgram isLayout)
          (fun declared member => free id original isOriginal declared (locals member)) made)
      _ _ ran
  obtain ⟨own, scopes⟩ := Agenda.exists_scopes fun code member => by
    obtain ⟨id, -, -, scopes⟩ := exists_of_mem_right scoped_ member
    exact scopes
  have isNames : lowered.flags.map Prod.fst = codes.map MethodCode.name := by
    rw [flags, List.map_map]
    rfl
  -- Every method that has a name has been lowered.
  have signs : last.agenda.Signs own := by
    rintro name ⟨id, isNamed⟩
    have among := (sound.named_iff id).1 ⟨name, isNamed⟩
    rw [empty, List.append_nil] at among
    obtain ⟨code, isCode, named, -⟩ := exists_of_mem_left scoped_ among
    cases isNamed.symm.trans named
    exact scopes.methods _ (List.mem_map_of_mem isCode)
  rw [isNames, functions]
  exact ⟨own, scopes.inScope own signs (List.Subset.refl _), scopes.plain⟩

/-- A method that walks along a list of nodes. -/
def walkingMethod : Method where
  className := "A"
  name := "walk"
  isStatic := true
  params := []
  returnType := .void
  locals := [⟨"x", .ref "A"⟩, ⟨"y", .ref "A"⟩]
  entry := ⟨0⟩
  blocks := [
    ⟨⟨0⟩, [.assign (.var "x") (.new "A")], [⟨1⟩]⟩,
    ⟨⟨1⟩, [.branch .nondet], [⟨2⟩, ⟨3⟩]⟩,
    ⟨⟨2⟩, [.assign (.var "y") (.fieldRead "x" ⟨"A", "next"⟩ (.singleton "A")),
      .assign (.var "x") (.use (.var "y"))], [⟨1⟩]⟩,
    ⟨⟨3⟩, [.ret none], []⟩]
  plan := none

/-- A program with the method alone. -/
def walkingProgram : Program where
  classes := [⟨"A", none, [⟨"next", .ref "A"⟩]⟩]
  methods := .ofList [(.plain "A" "walk", walkingMethod)]
  entry := .plain "A" "walk"

/-- A program with fields and calls is lowered to scoped code. -/
theorem Program.lower_scoped_walking : ∃ lowered,
    walkingProgram.lower .mutable none = .ok lowered ∧
      ∃ signatures : List Signature, List.Forall₂ (Target.Function.Scoped .cell signatures)
        signatures lowered.program.functions := by
  have found : walkingProgram.functionNames? = some ["A_walk__loop_1", "A_walk"] := by
    decide +kernel
  obtain ⟨lowered, lowers, -⟩ := exists_of_functionNames? found
  obtain ⟨signatures, inScope, -⟩ := lower_scoped lowers fun id method isMethod => by
    have only : walkingProgram.method? id =
        if MethodId.plain "A" "walk" = id then some walkingMethod else none := by
      rw [method?, walkingProgram, SortedMap.ofList, List.foldl_cons, List.foldl_nil,
        SortedMap.get?_insert, SortedMap.get?_empty]
    rw [only] at isMethod
    split at isMethod
    · cases isMethod
      decide
    · cases isMethod
  exact ⟨lowered, lowers, signatures, inScope⟩

end GotoFree
