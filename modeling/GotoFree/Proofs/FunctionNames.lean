import GotoFree.Proofs.TreeJudgements

/-!
# The names of functions

The functions that are made beside that of a method belong to its loops and to its instructions that
dispatch (`Job.gives_tree`). A method is lowered once, a loop has one head, and the number of an
instruction is its position among those that were entered, so these functions have different names
(`Origin.name_inj`). But a method may be named like one of them (`Program.lower_names`).
-/

namespace GotoFree

/-- The name of the dispatch function of an instruction. -/
def Agenda.dispatchName (agenda : Agenda) (spot : Spot) : String :=
  GotoFree.dispatchName (agenda.spots.order.idxOf spot)

namespace Job

variable {job : Job} {scope : Scope} {source : Instr} {later : Agenda} {number : Nat}

/-! ## Instructions -/

/-- At most the dispatch function of the instruction is made. -/
def AtMost (job : Job) (later : Agenda) (number : Nat) (made : List Target.Function) : Prop :=
  made = [] ∨ ∃ function, made = [function] ∧ job.Dispatcher later number function

theorem AtMost.nil : job.AtMost later number [] := .inl rfl

/-- At most one function is made, under the name for its instruction. -/
theorem AtMost.names {made : List Target.Function} (few : job.AtMost later number made) :
    (made.map Target.Function.name).Sublist [dispatchName number] := by
  obtain rfl | ⟨function, rfl, site, instr, width, arms, type, -, -, rfl⟩ := few
  · exact List.nil_sublist _
  · exact List.Sublist.refl _

/-- A call makes the function that it dispatches by, if any. -/
theorem Reaches.atMost {function : String} {made : List Target.Function}
    (reaches : job.Reaches later number function made) : job.AtMost later number made := by
  obtain ⟨rfl, -⟩ | ⟨dispatcher, rfl, -, isDispatcher⟩ := reaches
  · exact .nil
  · exact .inr ⟨dispatcher, rfl, isDispatcher⟩

/-- A call makes at most one function. -/
theorem gives_call_atMost {site : Call} :
    Lower.Gives (·.Within job.setting.program later (some number)) (job.call scope site source)
      fun _ made => job.AtMost later number made :=
  gives_call.imp fun answer made found => by
    obtain ⟨-, rfl⟩ | ⟨function, temporaries, operands, args, -, -, -, serves⟩ := found
    · exact .nil
    · exact serves.reaches.atMost

theorem Quiet.atMost {α : Type} {step : Lower α} (quiet : job.Quiet later (some number) step) :
    Lower.Gives (·.Within job.setting.program later (some number)) step
      fun _ made => job.AtMost later number made :=
  Lower.Gives.imp quiet fun _ _ found => found.1 ▸ .nil

/-- An expression makes at most one function. -/
theorem gives_expr_atMost {value : Expr} :
    Lower.Gives (·.Within job.setting.program later (some number)) (job.expr scope source value)
      fun _ made => job.AtMost later number made := by
  cases value with
  | use operand | unary _ operand | newArray _ operand | arrayLength | new =>
      exact Quiet.check.skip fun value => .pure .nil
  | binary | arrayRead =>
      exact Quiet.check.skip fun first => Quiet.check.skip fun second => .pure .nil
  | fieldRead base field possibleTypes => exact quiet_fieldValue.atMost
  | call site =>
      refine gives_call_atMost.bind fun answer => ?_
      split
      · exact .pure fun made few => by rwa [List.append_nil]
      · exact .reject
  | nondet => exact .pure .nil
  | cast operand type =>
      unfold expr
      dsimp only
      split
      · exact Quiet.check.skip fun value => .pure .nil
      · exact .reject
  | unmodelled => exact .reject

/-- A plain instruction makes at most one function. -/
theorem gives_plainInstr_atMost :
    Lower.Gives (·.Within job.setting.program later (some number)) (job.plainInstr scope source)
      fun _ made => job.AtMost later number made := by
  cases source with
  | assign target value =>
      refine gives_expr_atMost.bind fun computed => quiet_assign.skip fun stored => .pure ?_
      intro made few
      rwa [List.append_nil]
  | call site =>
      refine gives_call_atMost.bind fun answer => ?_
      split
      · exact .pure fun made few => by rwa [List.append_nil]
      · exact .pure fun made few => by rwa [List.append_nil]
  | nop unreachable => cases unreachable <;> exact .pure .nil
  | throw | identity | branch | goto | ret => exact .reject
  | aliased left right =>
      exact Quiet.check.skip fun left => Quiet.check.skip fun right => .pure .nil

/-- An instruction makes at most one function. -/
theorem gives_instr_atMost {id : BlockId} :
    Lower.Gives (·.Within job.setting.program later (some number)) (job.instr id scope source)
      fun _ made => job.AtMost later number made := by
  have plain : Lower.Gives (·.Within job.setting.program later (some number))
      (do return Lowered.plain (← job.plainInstr scope source))
      fun _ made => job.AtMost later number made :=
    gives_plainInstr_atMost.bind fun answer => .pure fun made few => by rwa [List.append_nil]
  cases source with
  | branch condition =>
      exact gives_expr_atMost.bind fun computed => .pure fun made few => by rwa [List.append_nil]
  | goto => exact .pure .nil
  | ret value => exact quiet_ret.skip fun steps => .pure .nil
  | identity target from_ =>
      unfold instr
      dsimp only
      split
      · exact .pure .nil
      · exact quiet_nameOfSource.skip fun param => Quiet.check.skip fun stored => .pure .nil
  | assign | call | nop | throw | aliased => exact plain

/-! ## Blocks -/

/-- Functions are made by instructions of a method. -/
structure MadeAt (job : Job) (later : Agenda) (spots : List Spot) (made : List Target.Function) :
    Prop where
  distinct : spots.Nodup
  known : ∀ spot ∈ spots, spot ∈ later.spots.order ∧ spot.method = job.id
  names : made.map Target.Function.name = spots.map later.dispatchName

/-- The functions of a block are made by its instructions, each under its own number. -/
theorem gives_instrs {id : BlockId} {index : Nat} {scope : Scope} {list : List Instr} :
    Lower.Gives (·.Within job.setting.program later none) (job.instrs id index scope list)
      fun _ made => ∃ spots, job.MadeAt later spots made ∧
        ∀ spot ∈ spots, spot.block = id ∧ index ≤ spot.index := by
  induction list generalizing index scope with
  | nil => exact .pure ⟨[], ⟨.nil, by simp, rfl⟩, by simp⟩
  | cons first rest ih =>
      refine Lower.gives_enter_bind (fun number => gives_instr_atMost) fun head =>
        ih.bind fun tail => .pure ?_
      rintro more ⟨spots, ⟨distinct, known, names⟩, behind⟩ made entered few
      rw [List.append_nil]
      rcases List.sublist_singleton.1 few.names with none | one
      · refine ⟨spots, ⟨distinct, known, ?_⟩, fun spot member => ?_⟩
        · rw [List.map_append, none, List.nil_append, names]
        · exact ⟨(behind spot member).1, Nat.le_of_succ_le (behind spot member).2⟩
      · refine ⟨⟨job.id, id, index⟩ :: spots, ⟨List.nodup_cons.2 ⟨fun member => ?_, distinct⟩,
          List.forall_mem_cons.2 ⟨⟨entered, rfl⟩, known⟩, ?_⟩,
          List.forall_mem_cons.2 ⟨⟨rfl, Nat.le_refl _⟩, fun spot member => ?_⟩⟩
        · exact Nat.not_succ_le_self _ (behind _ member).2
        · rw [List.map_append, one, names]
          rfl
        · exact ⟨(behind spot member).1, Nat.le_of_succ_le (behind spot member).2⟩

/-! ## Trees -/

/-- Functions are made for some loops and in some blocks of a method. -/
def Makes (job : Job) (later : Agenda) (heads blocks : List BlockId) (made : List Target.Function) :
    Prop :=
  ∃ spots : List Spot, spots.Nodup ∧
    (∀ spot ∈ spots, spot ∈ later.spots.order ∧ spot.method = job.id ∧ spot.block ∈ blocks) ∧
    (made.map Target.Function.name).Perm (heads.map job.loopName ++ spots.map later.dispatchName)

namespace Makes

variable {heads moreHeads blocks moreBlocks : List BlockId} {made more : List Target.Function}

theorem nil : job.Makes later [] blocks [] := ⟨[], .nil, by simp, .refl _⟩

/-- Functions of disjoint parts are made for the loops and blocks of both. -/
theorem append (first : job.Makes later heads blocks made)
    (second : job.Makes later moreHeads moreBlocks more) (apart : blocks.Disjoint moreBlocks) :
    job.Makes later (heads ++ moreHeads) (blocks ++ moreBlocks) (made ++ more) := by
  obtain ⟨spots, distinct, known, names⟩ := first
  obtain ⟨others, distinctOthers, knownOthers, namesOthers⟩ := second
  refine ⟨spots ++ others, List.nodup_append'.2 ⟨distinct, distinctOthers, ?_⟩, ?_, ?_⟩
  · exact fun spot member other =>
      apart (known spot member).2.2 (knownOthers spot other).2.2
  · intro spot member
    rw [List.mem_append]
    rcases List.mem_append.1 member with member | member
    · exact ⟨(known spot member).1, (known spot member).2.1, .inl (known spot member).2.2⟩
    · exact ⟨(knownOthers spot member).1, (knownOthers spot member).2.1,
        .inr (knownOthers spot member).2.2⟩
  · simp only [List.map_append]
    refine (names.append namesOthers).trans ?_
    simp only [List.append_assoc]
    refine List.Perm.append_left _ ?_
    simp only [← List.append_assoc]
    exact List.Perm.append_right _ List.perm_append_comm

/-- A loop makes its own function after those made in its body. -/
theorem loop {head : BlockId} {params : List String} {body : List Target.Stmt}
    (inner : job.Makes later heads blocks made) :
    job.Makes later (head :: heads) blocks (made ++ [⟨job.loopName head, params, body⟩]) := by
  obtain ⟨spots, distinct, known, names⟩ := inner
  refine ⟨spots, distinct, known, ?_⟩
  rw [List.map_append, heads.map_cons, List.cons_append]
  exact List.perm_append_comm.trans (names.cons _)

/-- The loops may be listed in another order. -/
theorem perm (makes : job.Makes later heads blocks made) (same : heads.Perm moreHeads) :
    job.Makes later moreHeads blocks made := by
  obtain ⟨spots, distinct, known, names⟩ := makes
  exact ⟨spots, distinct, known, names.trans ((same.map _).append_right _)⟩

end Makes

/-- A block makes functions in that block only. -/
theorem gives_block {id : BlockId} :
    Lower.Gives (·.Within job.setting.program later none) (job.block scope id)
      fun _ made => job.Makes later [] [id] made := by
  unfold block
  split
  · exact .reject
  · refine Quiet.check.skip fun opened => gives_instrs.bind fun body => .pure ?_
    rintro made ⟨spots, ⟨distinct, known, names⟩, inBlock⟩
    rw [List.append_nil]
    refine ⟨spots, distinct, fun spot member => ?_, by simp [names]⟩
    exact ⟨(known spot member).1, (known spot member).2,
      List.mem_singleton.2 (inBlock spot member).1⟩

/-- Functions are made for the loops and in the blocks that are lowered, if no block is lowered
twice. -/
theorem tallies_makes : job.Tallies fun step heads blocks => blocks.Nodup →
    Lower.Gives (·.Within job.setting.program later none) step fun _ made =>
      job.Makes later heads blocks made where
  still still _ := Lower.Gives.imp still.answers fun _ _ found => found.1 ▸ .nil
  bind one other distinct := by
    obtain ⟨first, second, apart⟩ := List.nodup_append'.1 distinct
    exact (one first).bind fun value => (other value second).imp fun _ _ behind _ own =>
      own.append behind apart
  reject _ := .reject
  block _ := gives_block
  helper _ := Lower.gives_addHelper.imp fun _ _ only => only ▸ Makes.nil.loop
  perm same gives distinct := (gives distinct).imp fun _ _ makes => makes.perm same

/-- A tree makes a function for each of its loops, and functions in its blocks. -/
theorem gives_tree {scope : Scope} (around : Option BlockId) {tree : Tree}
    (distinct : tree.blocks.Nodup) :
    Lower.Gives (·.Within job.setting.program later none) (job.tree scope tree)
      fun _ made => job.Makes later ((tree.nestings around).map Prod.fst) tree.blocks made :=
  tallies_makes.tree around distinct

end Job

/-! ## Methods -/

/-- The functions of a method: its own, those of its loops and those of its instructions. -/
def MethodCode.NamedIn (agenda : Agenda) (id : MethodId) (code : MethodCode) : Prop :=
  agenda.nameOf? id = some code.name ∧
    ∃ (heads : List BlockId) (spots : List Spot), heads.Nodup ∧ spots.Nodup ∧
      (∀ spot ∈ spots, spot ∈ agenda.spots.order ∧ spot.method = id) ∧
      (code.functions.map Target.Function.name).Perm
        (code.name :: (heads.map (fun head => code.name ++ "__loop_" ++ head.text) ++
          spots.map agenda.dispatchName))

/-- The name of a dispatch function is kept. -/
theorem Agenda.Keeps.dispatchName_eq {agenda later : Agenda} (keeps : agenda.Keeps later)
    {spot : Spot} (known : spot ∈ agenda.spots.order) :
    later.dispatchName spot = agenda.dispatchName spot := by
  obtain ⟨more, same⟩ := keeps.spots
  rw [dispatchName, ← same, List.idxOf_append_of_mem known]
  rfl

/-- The names of a method's functions are kept. -/
theorem MethodCode.NamedIn.mono {agenda later : Agenda} {id : MethodId} {code : MethodCode}
    (named : code.NamedIn agenda id) (keeps : agenda.Keeps later) : code.NamedIn later id := by
  obtain ⟨name, heads, spots, distinctHeads, distinct, known, names⟩ := named
  refine ⟨keeps.names id _ name, heads, spots, distinctHeads, distinct, fun spot member =>
    ⟨keeps.spots.subset (known spot member).1, (known spot member).2⟩, ?_⟩
  have same : spots.map later.dispatchName = spots.map agenda.dispatchName :=
    List.map_congr_left fun spot member => keeps.dispatchName_eq (known spot member).1
  rwa [same]

/-- The functions of a method are named after it, its loops and its instructions. -/
theorem Lower.namedIn_method {setting : Setting} {id : MethodId} {method : Method}
    {progress after : Progress} {code : MethodCode}
    (isMethod : setting.program.method? id = some method)
    (made : Lower.method setting id method progress = .ok (code, after)) :
    progress.agenda.Leads setting.program after.agenda ∧ code.NamedIn after.agenda id := by
  obtain ⟨job, graph, forest, tree, entry, scope, steps, inside, begun, rfl, rfl, rfl, named, -, -,
    isOf, isMarked, -, leads, helpers, isNamed, lowered, functions⟩ := method_cases isMethod made
  have gives := @Job.gives_tree job after.agenda scope none tree isMarked.fits.part.distinct
  obtain ⟨within, loops, isLast, spots, distinct, known, names⟩ :=
    gives begun _ after lowered ⟨.refl _, nofun⟩
  refine ⟨leads.trans within.leads, within.leads.names _ _ isNamed,
    (tree.nestings none).map Prod.fst, spots,
    isMarked.fits.nodup_nestings isOf LoopForest.owns_none, distinct,
    fun spot member => ⟨(known spot member).1, (known spot member).2.1⟩, ?_⟩
  rw [functions, isLast, helpers, List.nil_append, List.map_append]
  refine List.perm_append_comm.trans (.cons _ ?_)
  rw [← named]
  exact names

/-! ## Programs -/

/-- What a function is made for beside the methods: a loop or an instruction that dispatches. -/
inductive Origin where
  | loop (method : MethodId) (head : BlockId)
  | dispatch (spot : Spot)

namespace Origin

/-- The method of a loop or an instruction. -/
def method : Origin → MethodId
  | loop method _ => method
  | dispatch spot => spot.method

/-- The name of the function. -/
def name (agenda : Agenda) : Origin → String
  | loop method head => (agenda.nameOf? method).getD "" ++ "__loop_" ++ head.text
  | dispatch spot => agenda.dispatchName spot

/-- The method of a loop is named, and an instruction is numbered. -/
def Known (agenda : Agenda) : Origin → Prop
  | loop method _ => ∃ name, agenda.nameOf? method = some name
  | dispatch spot => spot ∈ agenda.spots.order

theorem loopName_eq {function : String} {head : BlockId} :
    function ++ "__loop_" ++ head.text =
      (function ++ "__loop") ++ "_" ++ toString head.number.toNat := by
  rw [@String.append_assoc function "__loop" "_"]
  rfl

theorem dispatchName_eq {number : Nat} :
    dispatchName number = "__vtable" ++ "_" ++ toString number :=
  rfl

/-- The name of a loop ends in another way before its number than that of an instruction. -/
theorem loopName_ne_dispatchName {function : String} {head : BlockId} {number : Nat} :
    function ++ "__loop_" ++ head.text ≠ dispatchName number := by
  rw [loopName_eq, dispatchName_eq]
  intro same
  have ends := congrArg (fun name => name.toList.getLast?) (append_toString_inj same).1
  simp at ends

/-- Functions that are made for different things have different names. -/
theorem name_inj {program : Program} {done : List MethodId} {agenda : Agenda}
    (sound : agenda.Sound program done) {one two : Origin} (knownOne : one.Known agenda)
    (knownTwo : two.Known agenda) (same : one.name agenda = two.name agenda) : one = two := by
  cases one with
  | loop method head =>
      cases two with
      | loop other entry =>
          obtain ⟨first, isFirst⟩ := knownOne
          obtain ⟨second, isSecond⟩ := knownTwo
          rw [name, name, isFirst, isSecond, loopName_eq, loopName_eq] at same
          obtain ⟨functions, numbers⟩ := append_toString_inj same
          simp only [Option.getD_some, String.append_left_inj] at functions
          subst functions
          rw [sound.apart method other _ isFirst isSecond,
            BlockId.text_inj (congrArg toString numbers : head.text = entry.text)]
      | dispatch spot => exact absurd same loopName_ne_dispatchName
  | dispatch spot =>
      cases two with
      | loop method head => exact absurd same.symm loopName_ne_dispatchName
      | dispatch other =>
          rw [name, name, Agenda.dispatchName, Agenda.dispatchName, dispatchName_eq,
            dispatchName_eq] at same
          have positions := (append_toString_inj same).2
          rw [(List.idxOf_inj knownOne).1 positions]

end Origin

/-- The functions of some methods are their own ones and those that are made for other things. -/
theorem exists_origins {agenda : Agenda} {ids : List MethodId} {codes : List MethodCode}
    (named : List.Forall₂ (fun id code => code.NamedIn agenda id) ids codes)
    (distinct : ids.Nodup) :
    ∃ origins : List Origin, origins.Nodup ∧
      (∀ origin ∈ origins, origin.Known agenda ∧ origin.method ∈ ids) ∧
      ((codes.flatMap MethodCode.functions).map Target.Function.name).Perm
        (codes.map MethodCode.name ++ origins.map (Origin.name agenda)) := by
  induction named with
  | nil => exact ⟨[], .nil, by simp, .refl _⟩
  | @cons id code ids codes here others ih =>
      obtain ⟨fresh, distinctRest⟩ := List.nodup_cons.1 distinct
      obtain ⟨origins, distinctOrigins, known, names⟩ := ih distinctRest
      obtain ⟨isNamed, heads, spots, distinctHeads, distinctSpots, knownSpots, own⟩ := here
      have loops : heads.map (fun head => code.name ++ "__loop_" ++ head.text) =
          (heads.map (Origin.loop id)).map (Origin.name agenda) := by
        simp [Origin.name, isNamed]
      have dispatches : spots.map agenda.dispatchName =
          (spots.map Origin.dispatch).map (Origin.name agenda) := by
        simp [Origin.name, Function.comp_def]
      have ofMethod : ∀ origin ∈ heads.map (Origin.loop id) ++ spots.map Origin.dispatch,
          origin.Known agenda ∧ origin.method = id := by
        intro origin member
        rcases List.mem_append.1 member with member | member
        · obtain ⟨head, -, rfl⟩ := List.mem_map.1 member
          exact ⟨⟨_, isNamed⟩, rfl⟩
        · obtain ⟨spot, among, rfl⟩ := List.mem_map.1 member
          exact knownSpots spot among
      refine ⟨heads.map (Origin.loop id) ++ spots.map Origin.dispatch ++ origins, ?_, ?_, ?_⟩
      · refine List.nodup_append'.2 ⟨List.nodup_append'.2 ⟨?_, ?_, ?_⟩, distinctOrigins, ?_⟩
        · exact distinctHeads.map fun one two same => (Origin.loop.inj same).2
        · exact distinctSpots.map fun one two same => Origin.dispatch.inj same
        · simp [List.Disjoint]
        · intro origin member other
          exact fresh ((ofMethod origin member).2 ▸ (known origin other).2)
      · intro origin member
        rcases List.mem_append.1 member with member | member
        · exact ⟨(ofMethod origin member).1, by simp [(ofMethod origin member).2]⟩
        · exact ⟨(known origin member).1, List.mem_cons_of_mem _ (known origin member).2⟩
      · rw [loops, dispatches] at own
        simp only [List.flatMap_cons, List.map_append, List.map_cons, List.cons_append] at own ⊢
        exact (own.append names).trans (.cons _ (List.perm_append_comm_assoc _ _ _))

/-- The functions of a lowered program are those of its methods, which have different names, and
those that are generated beside them for loops and dispatch, which have different names as well. So
all functions have different names exactly if no method is named like a generated function. -/
theorem Program.lower_names {program : Program} {model : ObjectModel} {entry : Option MethodId}
    {lowered : LoweredProgram} (lowers : program.lower model entry = .ok lowered) :
    ∃ generated : List String,
      (lowered.program.functions.map Target.Function.name).Perm
        (lowered.flags.map Prod.fst ++ generated) ∧
      (lowered.flags.map Prod.fst).Nodup ∧ generated.Nodup ∧
      (∀ name ∈ generated,
        (∃ function ∈ lowered.flags.map Prod.fst, ∃ head : BlockId,
          name = function ++ "__loop_" ++ head.text) ∨
        ∃ number : Nat, name = "__vtable_" ++ toString number) ∧
      ((lowered.program.functions.map Target.Function.name).Nodup ↔
        ∀ name ∈ lowered.flags.map Prod.fst, name ∉ generated) := by
  obtain ⟨prepared, layout, last, -, -, ran⟩ := lower_eq_ok_iff.1 lowers
  obtain ⟨ids, codes, sound, empty, named, functions, flags⟩ :=
    @Lower.forall₂_program _ (fun agenda id code => code.NamedIn agenda id)
      (fun _ _ _ _ keeps named => named.mono keeps)
      (fun _ _ _ _ _ isMethod made => Lower.namedIn_method isMethod made) _ _ ran
  have once := sound.once
  rw [empty, List.append_nil] at once
  obtain ⟨origins, distinct, known, names⟩ := exists_origins named once
  have isNames : lowered.flags.map Prod.fst = codes.map MethodCode.name := by
    rw [flags, List.map_map]
    rfl
  have distinctNames : (codes.map MethodCode.name).Nodup := by
    rw [List.Nodup, List.pairwise_map]
    refine pairwise_of_forall₂ named once fun one first two second isOne isTwo differ same => ?_
    exact differ (sound.apart one two first.name isOne.1 (same ▸ isTwo.1))
  have distinctOrigins : (origins.map (Origin.name last.agenda)).Nodup :=
    List.Nodup.map_on (fun one isOne two isTwo same =>
      Origin.name_inj sound (known one isOne).1 (known two isTwo).1 same) distinct
  rw [isNames, functions]
  refine ⟨origins.map (Origin.name last.agenda), names, distinctNames, distinctOrigins, ?_, ?_⟩
  · intro name member
    obtain ⟨origin, among, rfl⟩ := List.mem_map.1 member
    obtain ⟨isKnown, ofMethod⟩ := known origin among
    cases origin with
    | loop method head =>
        obtain ⟨code, isCode, good⟩ := exists_of_mem_left named ofMethod
        refine .inl ⟨code.name, List.mem_map_of_mem isCode, head, ?_⟩
        have isName : last.agenda.nameOf? method = some code.name := good.1
        rw [Origin.name, isName, Option.getD_some]
    | dispatch spot => exact .inr ⟨_, rfl⟩
  · rw [names.nodup_iff, List.nodup_append']
    exact ⟨fun all name member => all.2.2 member,
      fun apart => ⟨distinctNames, distinctOrigins, fun name member => apart name member⟩⟩

/-- A method with a loop at its second block calls another one before it. -/
def loopingMethod (callee : String) : Method where
  className := "A"
  name := "m"
  isStatic := true
  params := []
  returnType := .void
  locals := []
  entry := ⟨0⟩
  blocks := [
    ⟨⟨0⟩, [.call ⟨.static, ⟨"A", callee, 0⟩, none, [], .empty⟩], [⟨1⟩]⟩,
    ⟨⟨1⟩, [.branch .nondet], [⟨1⟩, ⟨2⟩]⟩,
    ⟨⟨2⟩, [.ret none], []⟩]
  plan := none

/-- A program with the method and the one that it calls. -/
def loopingProgram (callee : String) : Program where
  classes := []
  methods := .ofList [
    (.plain "A" "m", loopingMethod callee),
    (.plain "A" callee,
      { loopingMethod callee with name := callee, blocks := [⟨⟨0⟩, [.ret none], []⟩] })]
  entry := .plain "A" "m"

/-- The names of the functions of a program, if it is lowered. -/
def Program.functionNames? (program : Program) : Option (List String) :=
  (program.lower .mutable none).toOption.map fun lowered =>
    lowered.program.functions.map Target.Function.name

/-- What is found of a lowered program, if there is one. -/
theorem Program.exists_lowered {β : Type} {program : Program} {view : LoweredProgram → β}
    {found : β} (seen : (program.lower .mutable none).toOption.map view = some found) :
    ∃ lowered, program.lower .mutable none = .ok lowered ∧ view lowered = found := by
  obtain ⟨lowered, made, same⟩ := Option.map_eq_some_iff.1 seen
  refine ⟨lowered, ?_, same⟩
  cases lowers : program.lower .mutable none with
  | error failure =>
      rw [lowers] at made
      cases made
  | ok answer =>
      rw [lowers] at made
      exact congrArg Except.ok (Option.some.inj made)

/-- The names of functions that were found are those of a lowered program. -/
theorem Program.exists_of_functionNames? {program : Program} {names : List String}
    (found : program.functionNames? = some names) : ∃ lowered,
      program.lower .mutable none = .ok lowered ∧
        lowered.program.functions.map Target.Function.name = names :=
  exists_lowered found

/-- A program with a method named like a helper is lowered without a clash. -/
theorem Program.lower_names_looping : ∃ lowered,
    (loopingProgram "helper").lower .mutable none = .ok lowered ∧
      (lowered.flags.map Prod.fst).Nodup := by
  have found : (loopingProgram "helper").functionNames? =
    some ["A_m__loop_1", "A_m", "A_helper"] := by decide +kernel
  obtain ⟨lowered, lowers, -⟩ := exists_of_functionNames? found
  obtain ⟨generated, -, distinct, -⟩ := lower_names lowers
  exact ⟨lowered, lowers, distinct⟩

/-- A method that is named like the loop of another one gets the name of the loop's function. -/
theorem Program.not_nodup_looping : ∃ lowered,
    (loopingProgram "m__loop_1").lower .mutable none = .ok lowered ∧
      ¬ (lowered.program.functions.map Target.Function.name).Nodup := by
  have found : (loopingProgram "m__loop_1").functionNames? =
    some ["A_m__loop_1", "A_m", "A_m__loop_1"] := by decide +kernel
  obtain ⟨lowered, lowers, names⟩ := exists_of_functionNames? found
  exact ⟨lowered, lowers, by rw [names]; decide⟩

end GotoFree
