import GotoFree.Proofs.NamesInSight
import GotoFree.Proofs.ScopedTrees

/-!
# Names in sight in the code of a tree

At each place in the code of a method the names in sight are the arguments, the control cell, and
what was made up for the blocks that are done by then; and, as names of their own kind, the bound
locals (`Job.Sees`). A tree holds each block once, and its plan introduces each local once, so no
made-up name is in sight twice, and no local is (`Job.gives_keepsApart_tree`). Nothing keeps a local
from being named like what is made up: where one is, it may hide that, or be hidden.
-/

namespace GotoFree

open Scope (Binds)
open Target (Clear Parted Script Stmt)

namespace Method

/-- A name is made up for a method: that of the control cell, of an argument, of a temporary of one
of its instructions, or of the result of a loop at one of its blocks. -/
def MakesUp (method : Method) (id : MethodId) (agenda : Agenda) (name : String) : Prop :=
  name = controlCell ∨ name ∈ method.incomingNames ∨
    (∃ spot ∈ agenda.spots.order, spot.method = id ∧
      IsTemporary (agenda.spots.order.idxOf spot) name) ∨
    ∃ block ∈ method.blocks, name = "__loop_res_" ++ block.id.text

/-- What is made up for a method begins as lowering names things. -/
theorem MakesUp.isMadeUp {method : Method} {id : MethodId} {agenda : Agenda} {name : String}
    (makesUp : method.MakesUp id agenda name) : IsMadeUp name := by
  obtain rfl | incoming | ⟨spot, -, -, isTemporary⟩ | ⟨block, -, rfl⟩ := makesUp
  · decide
  · obtain ⟨stem, isStem, rest, rfl⟩ := exists_stem_of_incoming incoming
    have among : ∀ stem ∈ ["__this", "__in_", "__arg"], stem ∈ stems := by decide
    exact isMadeUp_append (among stem isStem)
  · exact isTemporary.isMadeUp
  · exact isMadeUp_append (by decide)

/-- A name is that of a local of a method. -/
def Declares (method : Method) (name : String) : Prop :=
  ∃ declared ∈ method.locals, declared.name = name

/-- A name that the functions of a method may bind. -/
def IsName (method : Method) (id : MethodId) (agenda : Agenda) (name : String) : Prop :=
  method.MakesUp id agenda name ∨ method.Declares name

/-- Names in sight are made up for a method, each once, and locals of it, each once. -/
def TellsApart (method : Method) (id : MethodId) (agenda : Agenda) : List String → Prop :=
  Parted (method.MakesUp id agenda) method.Declares

end Method

namespace Job

variable {job : Job} {scope middle after : Scope} {later : Agenda} {made : List Target.Function}
  {done blocks more : List BlockId} {name : String} {names : List String} {id : BlockId}
  {steps others : Script}

/-- The arguments of a method have different names, and its plan introduces each local once. -/
structure Orderly (job : Job) : Prop where
  arguments : job.method.incomingNames.Nodup
  once : (job.plan.locals.map Prod.fst).Nodup
  declared : ∀ entry ∈ job.plan.locals, ∃ declared ∈ job.method.locals, declared.name = entry.1

/-- In an orderly method no local is named as lowering names things. -/
structure Hygienic (job : Job) : Prop extends Orderly job where
  free : ∀ declared ∈ job.method.locals, ¬ IsMadeUp declared.name

/-! ## Introductions -/

/-- The locals that a plan introduces at a block. -/
def introducedAt (job : Job) (id : BlockId) : List String :=
  ((job.plan.blocks.get? id).getD .empty).keys

/-- A local is introduced with the method or at one of some blocks. -/
def IntroducedIn (job : Job) (done : List BlockId) (name : String) : Prop :=
  name ∈ job.plan.entry.keys ∨ ∃ id ∈ done, name ∈ job.introducedAt id

/-- The locals of a scope have been introduced where control has been. -/
def Started (job : Job) (done : List BlockId) (scope : Scope) : Prop :=
  ∀ name, scope.Has name → job.IntroducedIn done name

theorem IntroducedIn.exists_entry (introduced : job.IntroducedIn done name) :
    ∃ entry ∈ job.plan.locals, entry.1 = name := by
  obtain member | ⟨id, -, member⟩ := introduced
  · obtain ⟨entry, among, same⟩ := List.mem_map.1 member
    exact ⟨entry, List.mem_append_left _ among, same⟩
  · obtain ⟨entry, among, same⟩ := List.mem_map.1 member
    exact ⟨entry, BindingPlan.mem_locals_of_block among, same⟩

theorem IntroducedIn.mono (introduced : job.IntroducedIn done name) (subset : done ⊆ more) :
    job.IntroducedIn more name :=
  introduced.imp_right fun ⟨id, member, here⟩ => ⟨id, subset member, here⟩

theorem Started.mono (started : job.Started done scope) (subset : done ⊆ more) :
    job.Started more scope :=
  fun name has => (started name has).mono subset

namespace Orderly

variable (orderly : job.Orderly)

include orderly

theorem declares (introduced : job.IntroducedIn done name) : job.method.Declares name := by
  obtain ⟨entry, member, rfl⟩ := introduced.exists_entry
  exact orderly.declared entry member

/-- A local is introduced in one place. -/
theorem mem_of_introducedIn (introduced : job.IntroducedIn done name)
    (here : name ∈ job.introducedAt id) : id ∈ done := by
  have once := orderly.once
  rw [BindingPlan.locals, List.map_append, List.map_flatMap, List.nodup_append'] at once
  obtain ⟨-, ofBlocks, apart⟩ := once
  have listed {id : BlockId} (member : name ∈ job.introducedAt id) :
      ∃ entry ∈ job.plan.blocks.entries, entry.1 = id ∧ name ∈ entry.2.entries.map Prod.fst := by
    unfold introducedAt at member
    cases found : job.plan.blocks.get? id with
    | none => simp [found, SortedMap.empty, SortedMap.keys] at member
    | some locals =>
        refine ⟨_, SortedMap.get?_eq_some_iff.1 found, rfl, ?_⟩
        simpa [found, SortedMap.keys] using member
  obtain ⟨entry, isEntry, rfl, among⟩ := listed here
  obtain atEntry | ⟨other, isDone, there⟩ := introduced
  · exact (apart atEntry (List.mem_flatMap.2 ⟨entry, isEntry, among⟩)).elim
  · obtain ⟨another, isOther, rfl, amongOther⟩ := listed there
    have same : another = entry := by
      refine @eq_of_pairwise_not _ _ (fun entry => name ∈ entry.2.entries.map Prod.fst) ?_ _ _
        isOther isEntry amongOther among
      exact (List.nodup_flatMap.1 ofBlocks).2.imp fun apart left right => apart left right
    exact same ▸ isDone

end Orderly

/-! ## Names in sight -/

/-- A name is there from the start of a function: an argument or the control cell. -/
def IsOuter (job : Job) (name : String) : Prop :=
  name = controlCell ∨ name ∈ job.method.incomingNames

/-- A name is made up for some blocks: a temporary of an instruction in one of them, or the result
of a loop at one of them. -/
def Minted (job : Job) (later : Agenda) (blocks : List BlockId) (name : String) : Prop :=
  (∃ spot ∈ later.spots.order, spot.method = job.id ∧ spot.block ∈ blocks ∧
    IsTemporary (later.spots.order.idxOf spot) name) ∨
    ∃ block ∈ job.method.blocks, block.id ∈ blocks ∧ name = "__loop_res_" ++ block.id.text

theorem IsOuter.exists_stem (outer : job.IsOuter name) :
    ∃ stem ∈ ["__ctl", "__this", "__in_", "__arg"], ∃ rest, name = stem ++ rest := by
  obtain rfl | incoming := outer
  · exact ⟨"__ctl", by simp, "", by simp [controlCell]⟩
  · obtain ⟨stem, isStem, rest, same⟩ := Method.exists_stem_of_incoming incoming
    exact ⟨stem, List.mem_cons_of_mem _ isStem, rest, same⟩

theorem controlCell_notMem_incomingNames : controlCell ∉ job.method.incomingNames := by
  intro member
  obtain ⟨stem, isStem, rest, same⟩ := Method.exists_stem_of_incoming member
  have others : ∀ stem ∈ ["__this", "__in_", "__arg"], stem ∈ stems ∧ stem ≠ "__ctl" := by decide
  exact (others stem isStem).2
    (@stem_inj "__ctl" stem "" rest (by decide) (others stem isStem).1 same).symm

theorem IsOuter.makesUp (outer : job.IsOuter name) : job.method.MakesUp job.id later name :=
  outer.imp_right .inl

theorem IsOuter.isMadeUp (outer : job.IsOuter name) : IsMadeUp name := by
  obtain ⟨stem, isStem, rest, rfl⟩ := outer.exists_stem
  have among : ∀ stem ∈ ["__ctl", "__this", "__in_", "__arg"], stem ∈ stems := by decide
  exact isMadeUp_append (among stem isStem)

namespace Minted

theorem makesUp (minted : job.Minted later blocks name) :
    job.method.MakesUp job.id later name := by
  obtain ⟨spot, known, ofMethod, -, isTemporary⟩ | ⟨block, member, -, same⟩ := minted
  · exact .inr (.inr (.inl ⟨spot, known, ofMethod, isTemporary⟩))
  · exact .inr (.inr (.inr ⟨block, member, same⟩))

theorem mono (minted : job.Minted later blocks name) (subset : blocks ⊆ more) :
    job.Minted later more name := by
  obtain ⟨spot, known, ofMethod, inside, isTemporary⟩ | ⟨block, member, inside, same⟩ := minted
  · exact .inl ⟨spot, known, ofMethod, subset inside, isTemporary⟩
  · exact .inr ⟨block, member, subset inside, same⟩

theorem not_isOuter (minted : job.Minted later blocks name) : ¬ job.IsOuter name := by
  intro outer
  obtain ⟨stem, isStem, rest, rfl⟩ := outer.exists_stem
  have apart : ∀ stem ∈ ["__ctl", "__this", "__in_", "__arg"],
      stem ∈ stems ∧ stem ∉ temporaryStems ∧ stem ≠ "__loop_res_" := by decide
  obtain ⟨among, noTemporary, noResult⟩ := apart stem isStem
  obtain ⟨spot, -, -, -, isTemporary⟩ | ⟨block, -, -, same⟩ := minted
  · exact isTemporary.ne among noTemporary rfl
  · exact noResult (stem_inj among (by decide) same)

/-- What is made up for different blocks differs. -/
theorem shared (minted : job.Minted later blocks name) (other : job.Minted later more name) :
    ∃ id ∈ blocks, id ∈ more := by
  obtain ⟨spot, known, -, inside, isTemporary⟩ | ⟨block, -, inside, rfl⟩ := minted
  · obtain ⟨another, -, -, insideOther, isOther⟩ | ⟨block, -, -, rfl⟩ := other
    · have spots := (List.idxOf_inj known).1 (isTemporary.unit_eq isOther)
      exact ⟨spot.block, inside, spots ▸ insideOther⟩
    · exact absurd rfl (isTemporary.ne (by decide) (by decide))
  · obtain ⟨another, -, -, -, isOther⟩ | ⟨another, -, insideOther, same⟩ := other
    · exact absurd rfl (isOther.ne (by decide) (by decide))
    · have heads := BlockId.text_inj ((String.append_right_inj _).1 same)
      exact ⟨block.id, inside, heads ▸ insideOther⟩

end Minted

/-- The names in sight: what is there from the start of the function and what was made up for the
blocks that are done, each once, and the bound locals, each once. -/
def Sees (job : Job) (later : Agenda) (done : List BlockId) (scope : Scope) :
    List String → Prop :=
  Parted (fun name => job.IsOuter name ∨ job.Minted later done name)
    fun name => (scope.binding? name).isSome = true

theorem Sees.mono (sees : job.Sees later done scope names) (subset : done ⊆ more) :
    job.Sees later more scope names :=
  sees.imp (fun _ => Or.imp_right fun minted => minted.mono subset) fun _ bound => bound

theorem Sees.tellsApart (orderly : job.Orderly) (started : job.Started done scope)
    (sees : job.Sees later done scope names) : job.method.TellsApart job.id later names :=
  sees.imp (fun _ either => either.elim IsOuter.makesUp Minted.makesUp) fun name bound =>
    orderly.declares (started name (.inl bound))

/-- Steps bind only what is made up for blocks that are not done yet, and locals that are not bound
yet. -/
theorem Sees.binds {minted : String → Prop} {added : List String} (orderly : job.Orderly)
    (started : job.Started (done ++ blocks) after) (apart : done.Disjoint blocks)
    (binds : Binds minted added scope after steps)
    (mints : ∀ name, minted name → job.Minted later blocks name)
    (sees : job.Sees later done scope names) :
    steps.Sighted (job.method.TellsApart job.id later) names ∧
      job.Sees later (done ++ blocks) after (Script.opened names steps) := by
  have fresh (name : String) (isMinted : minted name) :
      ¬ (job.IsOuter name ∨ job.Minted later done name) := by
    rintro (outer | seen)
    · exact (mints name isMinted).not_isOuter outer
    · obtain ⟨id, isDone, inside⟩ := seen.shared (mints name isMinted)
      exact apart isDone inside
  have both := binds.names.append sees fresh fun name unbound bound => by simp [unbound.1] at bound
  have seesAfter : job.Sees later (done ++ blocks) after (steps.bound ++ names) := by
    refine both.imp (fun name either => ?_) fun name either => ?_
    · obtain isMinted | outer | seen := either
      · exact .inr ((mints name isMinted).mono (List.subset_append_right _ _))
      · exact .inl outer
      · exact .inr (seen.mono (List.subset_append_left _ _))
    · exact either.elim And.right (binds.keeps name)
  exact ⟨binds.flat.sighted Parted.stable (seesAfter.tellsApart orderly started),
    seesAfter.perm Script.opened_perm⟩

/-! ## Code -/

/-- Code leads from a scope to another one, and tells the names in sight apart everywhere; some more
blocks are done after it. -/
structure Clears (job : Job) (later : Agenda) (done blocks : List BlockId) (scope after : Scope)
    (steps : Script) : Prop where
  started : job.Started (done ++ blocks) after
  keeps : ∀ names, job.Sees later done scope names →
    steps.Sighted (job.method.TellsApart job.id later) names ∧
      job.Sees later (done ++ blocks) after (Script.opened names steps)

/-- In some statements the names in sight are told apart everywhere. -/
def TellsIn (job : Job) (later : Agenda) (done : List BlockId) (scope : Scope)
    (stmts : List Stmt) : Prop :=
  ∀ names, job.Sees later done scope names →
    ∀ stmt ∈ stmts, stmt.Sighted (job.method.TellsApart job.id later) names

/-- A name that a dispatch function binds. -/
def IsDispatchName (name : String) : Prop :=
  name = "__tag" ∨ name = "this" ∨ ∃ index : Nat, name = "__p" ++ toString index

/-- Each function tells the names in sight apart, or is a dispatch function and hides none. -/
def Distinguishes (job : Job) (later : Agenda) (made : List Target.Function) : Prop :=
  ∀ function ∈ made, function.Sighted (job.method.TellsApart job.id later) ∨
    function.Unshadowed IsDispatchName

namespace Clears

theorem append (first : job.Clears later done blocks scope middle steps)
    (second : job.Clears later (done ++ blocks) more middle after others) :
    job.Clears later done (blocks ++ more) scope after (steps ++ others) := by
  refine ⟨List.append_assoc .. ▸ second.started, fun names sees => ?_⟩
  obtain ⟨sighted, seesMiddle⟩ := first.keeps names sees
  obtain ⟨sightedRest, seesAfter⟩ := second.keeps _ seesMiddle
  rw [Script.opened_append, ← List.append_assoc]
  exact ⟨Script.sighted_append_iff.2 ⟨sighted, sightedRest⟩, seesAfter⟩

theorem tellsIn (clears : job.Clears later done blocks scope after steps) :
    job.TellsIn later done scope steps.stmts :=
  fun names sees => (clears.keeps names sees).1.stmts

/-- What a nested part binds ends with the part. -/
theorem nested {stmts : List Stmt} (started : job.Started done scope)
    (tells : job.TellsIn later done scope stmts) :
    job.Clears later done blocks scope scope (Script.ofStmts stmts) := by
  refine ⟨started.mono (List.subset_append_left _ _), fun names sees => ?_⟩
  rw [Script.opened_ofStmts]
  exact ⟨Script.sighted_ofStmts_iff.2 (tells names sees),
    sees.mono (List.subset_append_left _ _)⟩

/-- Steps bind only what is made up for blocks that are not done yet, and locals that are not bound
yet. -/
theorem of_binds {minted : String → Prop} {added : List String} (orderly : job.Orderly)
    (started : job.Started done scope) (apart : done.Disjoint blocks)
    (binds : Binds minted added scope after steps)
    (mints : ∀ name, minted name → job.Minted later blocks name)
    (introduced : ∀ name ∈ added, job.IntroducedIn (done ++ blocks) name) :
    job.Clears later done blocks scope after steps := by
  have startedAfter : job.Started (done ++ blocks) after := fun name has =>
    (binds.has name has).elim (fun had => (started name had).mono (List.subset_append_left _ _))
      (introduced name)
  exact ⟨startedAfter, fun names sees => sees.binds orderly startedAfter apart binds mints⟩

end Clears

namespace Distinguishes

theorem nil : job.Distinguishes later [] := nofun

theorem append {made more : List Target.Function} (first : job.Distinguishes later made)
    (second : job.Distinguishes later more) : job.Distinguishes later (made ++ more) :=
  List.forall_mem_append.2 ⟨first, second⟩

end Distinguishes

/-- A dispatch function binds the tag of the receiver beside its parameters. -/
theorem Dispatcher.unshadowed {number : Nat} {function : Target.Function}
    (isDispatcher : job.Dispatcher later number function) : function.Unshadowed IsDispatchName := by
  obtain ⟨site, instr, width, arms, type, -, areArms, rfl⟩ := isDispatcher
  have params : Clear IsDispatchName (dispatchParams site) := by
    refine ⟨nodup_dispatchParams, List.forall_mem_cons.2 ⟨.inr (.inl rfl), fun name member => ?_⟩⟩
    obtain ⟨index, -, rfl⟩ := List.mem_map.1 member
    exact .inr (.inr ⟨index, rfl⟩)
  refine ⟨params, Script.Sighted.stmts ?_⟩
  have tag : Clear IsDispatchName ((tagHandle width).pattern.names ++ dispatchParams site) := by
    obtain ⟨distinct, only⟩ := @Handle.names_pattern (tagHandle width)
    refine ⟨List.nodup_append'.2 ⟨distinct, params.distinct, fun name isTag isParam => ?_⟩,
      List.forall_mem_append.2 ⟨fun name member => .inl (only name member), params.each⟩⟩
    exact tag_notMem_dispatchParams (only name isTag ▸ isParam)
  refine ⟨tag, Script.sighted_ofStmts_iff.2
    (List.forall_mem_append.2 ⟨fun arm member => ?_, ?_⟩)⟩
  · obtain ⟨tags, test, callee, -, -, rfl⟩ := areArms arm member
    exact .cond (List.forall_mem_singleton.2 .ret) nofun
  · exact List.forall_mem_cons.2 ⟨.assert, List.forall_mem_singleton.2 .ret⟩

theorem Dispatches.distinguishes {made : List Target.Function}
    (dispatches : job.Dispatches later made) : job.Distinguishes later made := by
  intro function member
  obtain ⟨number, isDispatcher⟩ := dispatches function member
  exact .inr isDispatcher.unshadowed

/-! ## Parts -/

/-- The code of a part tells the names in sight apart, and so do the functions that are made for
it. -/
abbrev KeepsApart (job : Job) (later : Agenda) (done blocks : List BlockId) (scope : Scope)
    (answer : Script × Scope) (made : List Target.Function) : Prop :=
  job.Distinguishes later made ∧ job.Clears later done blocks scope answer.2 answer.1

theorem gives_clears_block (orderly : job.Orderly) (fresh : id ∉ done) :
    Lower.Gives (·.Within job.setting.program later none) (job.block scope id)
      fun code made => job.Started done scope →
        job.KeepsApart later done [id] scope (code.steps, code.scope) made := by
  unfold block
  split
  · exact .reject
  · refine Lower.Gives.check_bind fun opened opens => gives_binds_instrs.bind fun body => .pure ?_
    rintro made ⟨dispatches, binds⟩ started
    rw [List.append_nil]
    refine ⟨dispatches.distinguishes, ?_⟩
    have apart : done.Disjoint [id] := List.disjoint_singleton.2 fresh
    have introduced {name : String} (member : name ∈ job.introducedAt id) :
        job.IntroducedIn [id] name := .inr ⟨id, List.mem_singleton_self id, member⟩
    have listed : ∀ entry ∈ ((job.plan.blocks.get? id).getD .empty).entries,
        entry.1 ∈ job.introducedAt id := fun entry member => List.mem_map_of_mem member
    have opening := binds_openBlock (SortedMap.nodup_keys _)
      (fun entry member => by
        -- A local that is bound already was introduced elsewhere.
        cases bound : scope.binding? entry.1 with
        | none => rfl
        | some binding =>
            have before := started entry.1 (.inl (by simp [bound]))
            exact (fresh (orderly.mem_of_introducedIn before (listed entry member))).elim)
      opens
    have both := opening.before binds
    refine .of_binds orderly started apart both (fun name minted => ?_) fun name member => ?_
    · obtain ⟨position, -, known, isTemporary⟩ := minted
      exact .inl ⟨_, known, rfl, List.mem_singleton_self id, isTemporary⟩
    · rw [List.append_nil] at member
      exact (introduced member).mono (List.subset_append_right _ _)

/-- Steps that bind nothing follow. -/
theorem Clears.behind (orderly : job.Orderly)
    (clears : job.Clears later done blocks scope after steps) (bindless : others.Bindless) :
    job.Clears later done blocks scope after (steps ++ others) := by
  refine ⟨clears.started, fun names sees => ?_⟩
  obtain ⟨sighted, seesAfter⟩ := clears.keeps names sees
  rw [Script.opened_append, Script.sighted_append_iff]
  have same : (Script.opened (Script.opened names steps) others).Perm
      (Script.opened names steps) := by
    simpa [bindless.bound] using @Script.opened_perm (Script.opened names steps) others
  have told := seesAfter.tellsApart orderly clears.started
  exact ⟨⟨sighted, bindless.flat.sighted Parted.stable (by simpa [bindless.bound] using told)⟩,
    seesAfter.perm same⟩

theorem gives_keepsApart_jump (orderly : job.Orderly) {label : Label} {coord : Coord}
    (fresh : label.head ∉ done) :
    Lower.Gives (·.Within job.setting.program later none) (job.tree scope (.jump label coord))
      fun answer made => job.Started done scope →
        job.KeepsApart later done [label.head] scope answer made := by
  rw [Job.tree]
  refine (gives_clears_block orderly fresh).bind fun body => ?_
  split
  · refine .pure fun made block started => ?_
    rw [List.append_nil]
    exact block started
  · refine Lower.Answers.bind (quiet_jump.yields bindless_jump) fun steps => .pure ?_
    intro bindless made block started
    rw [List.append_nil]
    exact ⟨(block started).1, (block started).2.behind orderly bindless⟩

theorem gives_tellsIn_arm {arm : Arm}
    (nested : ∀ tree, arm = .nested tree →
      Lower.Gives (·.Within job.setting.program later none) (job.tree scope tree)
        fun answer made => job.Started done scope →
          job.KeepsApart later done tree.blocks scope answer made)
    (orderly : job.Orderly) :
    Lower.Gives (·.Within job.setting.program later none) (job.arm scope arm)
      fun stmts made => job.Started done scope →
        job.Distinguishes later made ∧ job.TellsIn later done scope stmts := by
  cases arm with
  | jump coord jumps =>
      rw [Job.arm]
      refine Lower.Answers.bind (quiet_jump.yields bindless_jump) fun steps => .pure ?_
      intro bindless started
      refine ⟨.nil, fun names sees => (bindless.flat.sighted Parted.stable ?_).stmts⟩
      rw [bindless.bound]
      exact sees.tellsApart orderly started
  | nested tree =>
      rw [Job.arm]
      refine (nested tree rfl).bind fun answer => .pure fun made leads started => ?_
      rw [List.append_nil]
      exact ⟨(leads started).1, (leads started).2.tellsIn⟩

theorem gives_keepsApart_conditional (orderly : job.Orderly) {label : Label}
    {taken notTaken : Arm} (fresh : label.head ∉ done)
    (takenGives : ∀ scope, Lower.Gives (·.Within job.setting.program later none)
      (job.arm scope taken) fun stmts made => job.Started (done ++ [label.head]) scope →
        job.Distinguishes later made ∧ job.TellsIn later (done ++ [label.head]) scope stmts)
    (notTakenGives : ∀ scope, Lower.Gives (·.Within job.setting.program later none)
      (job.arm scope notTaken) fun stmts made => job.Started (done ++ [label.head]) scope →
        job.Distinguishes later made ∧ job.TellsIn later (done ++ [label.head]) scope stmts) :
    Lower.Gives (·.Within job.setting.program later none)
      (job.tree scope (.conditional label taken notTaken))
      fun answer made => job.Started done scope → job.KeepsApart later done
        (Tree.conditional label taken notTaken).blocks scope answer made := by
  rw [Job.tree, Tree.blocks_conditional]
  refine (gives_clears_block orderly fresh).bind fun body => ?_
  split
  · exact .reject
  · next condition _ =>
    refine (takenGives body.scope).bind fun thenBranch =>
      (notTakenGives body.scope).bind fun elseBranch => .pure ?_
    intro madeElse elseHides madeThen thenHides made block started
    obtain ⟨apart, clears⟩ := block started
    obtain ⟨thenApart, thenNone⟩ := thenHides clears.started
    obtain ⟨elseApart, elseNone⟩ := elseHides clears.started
    rw [List.append_nil]
    have branch : job.TellsIn later (done ++ [label.head]) body.scope
        [.cond condition thenBranch elseBranch] := fun names sees =>
      List.forall_mem_singleton.2 (.cond (thenNone names sees) (elseNone names sees))
    exact ⟨apart.append (thenApart.append elseApart),
      clears.append (.nested clears.started branch)⟩

/-- What an element with a gate binds ends with the element. -/
theorem gives_keepsApart_elems {elems : List Tree}
    (trees : ∀ tree ∈ elems, ∀ done, done.Disjoint tree.blocks → ∀ scope,
      Lower.Gives (·.Within job.setting.program later none) (job.tree scope tree)
        fun answer made => job.Started done scope →
          job.KeepsApart later done tree.blocks scope answer made)
    (distinct : (elems.flatMap Tree.blocks).Nodup) :
    ∀ done, done.Disjoint (elems.flatMap Tree.blocks) → ∀ scope,
      Lower.Gives (·.Within job.setting.program later none) (job.elems scope elems)
        fun answer made => job.Started done scope →
          job.KeepsApart later done (elems.flatMap Tree.blocks) scope answer made := by
  induction elems with
  | nil =>
      intro done _ scope
      refine .pure fun started => ⟨.nil, ?_⟩
      exact @Clears.nested job scope later done _ [] started nofun
  | cons tree rest ih =>
      rw [List.flatMap_cons, List.nodup_append'] at distinct
      obtain ⟨-, distinctRest, between⟩ := distinct
      intro done apart scope
      rw [List.flatMap_cons, List.disjoint_append_right] at apart
      have others := ih (fun other member => trees other (List.mem_cons_of_mem _ member))
        distinctRest (done ++ tree.blocks) (List.disjoint_append_left.2 ⟨apart.2, between⟩)
      rw [List.flatMap_cons]
      unfold Job.elems
      split
      · refine quiet_gate.skip fun test =>
          (trees tree (by simp) done apart.1 scope).bind fun answer =>
            (others scope).bind fun last => .pure ?_
        intro more follows made leads started
        obtain ⟨madeApart, clears⟩ := leads started
        obtain ⟨moreApart, clearsRest⟩ := follows (started.mono (List.subset_append_left _ _))
        rw [List.append_nil]
        refine ⟨madeApart.append moreApart, Clears.append ?_ clearsRest⟩
        split
        · exact @Clears.nested job scope later done tree.blocks [] started
            fun _ _ => List.forall_mem_nil _
        · exact @Clears.nested job scope later done tree.blocks
            [.onlyIf test answer.1.stmts] started fun names sees => List.forall_mem_singleton.2
              (.cond (clears.tellsIn names sees) (List.forall_mem_nil _))
      · refine (trees tree (by simp) done apart.1 scope).bind fun answer =>
          (others answer.2).bind fun last => .pure ?_
        intro more follows made leads started
        obtain ⟨madeApart, clears⟩ := leads started
        obtain ⟨moreApart, clearsRest⟩ := follows clears.started
        rw [List.append_nil]
        exact ⟨madeApart.append moreApart, clears.append clearsRest⟩

theorem gives_tellsIn_alternatives {merge : Label} {alternatives : List Tree}
    (trees : ∀ tree ∈ alternatives,
      Lower.Gives (·.Within job.setting.program later none) (job.tree scope tree)
        fun answer made => job.Started done scope →
          job.KeepsApart later done tree.blocks scope answer made) :
    Lower.Gives (·.Within job.setting.program later none)
      (job.alternatives scope merge alternatives)
      fun stmts made => job.Started done scope →
        job.Distinguishes later made ∧ job.TellsIn later done scope stmts := by
  induction alternatives with
  | nil => exact .pure fun _ => ⟨.nil, fun names _ => List.forall_mem_singleton.2 .assert⟩
  | cons tree rest ih =>
      unfold alternatives
      refine quiet_alternativeTest.skip fun test => (trees tree (by simp)).bind fun answer =>
        (ih fun other member => trees other (List.mem_cons_of_mem _ member)).bind fun others =>
          .pure ?_
      intro more follows made leads started
      obtain ⟨madeApart, clears⟩ := leads started
      obtain ⟨moreApart, none⟩ := follows started
      rw [List.append_nil]
      exact ⟨madeApart.append moreApart, fun names sees => List.forall_mem_singleton.2
        (.cond (clears.tellsIn names sees) (none names sees))⟩

/-! ## Loops -/

theorem bindless_returnIf {coords : CoordSet} {value : Target.Expr} :
    Lower.Yields (returnIf coords value) Script.Bindless := by
  unfold returnIf
  split
  · exact .pure .nil
  · exact Lower.Yields.skip fun test => .pure (.stmt fun _ _ =>
      .cond (List.forall_mem_singleton.2 .ret) nofun)

theorem bindless_recurseAfter {label : Label} :
    Lower.Yields (job.recurseAfter scope label) Script.Bindless := by
  unfold recurseAfter
  dsimp only
  split
  · exact .pure .nil
  · split
    · exact bindless_returnIf
    · exact .reject

theorem bindless_returnAfter {label : Label} :
    Lower.Yields (job.returnAfter scope label) Script.Bindless :=
  bindless_returnIf.bind fun _ returns => bindless_returnIf.bind fun _ leaves =>
    .pure (returns.append leaves)

/-- The parameters of a loop's function are what its method begins with, and the bound locals. -/
theorem sees_loopParams (orderly : job.Orderly) (frame : LoopFrame) :
    job.Sees later done (scope.insideLoop frame) (job.loopParams scope) := by
  have isOuter : ∀ name ∈ (if job.hasControlCell then [controlCell] else []) ++
      job.method.incomingNames, job.IsOuter name := by
    refine List.forall_mem_append.2 ⟨fun name member => .inl ?_, fun name member => .inr member⟩
    split at member
    · exact List.mem_singleton.1 member
    · cases member
  have isBound {name : String} (member : name ∈ scope.locals) :
      (scope.binding? name).isSome = true := by
    obtain ⟨binding, bound⟩ := SortedMap.mem_keys_iff.1 member
    exact Option.isSome_iff_exists.2 ⟨binding, bound⟩
  refine ⟨_, scope.locals, .refl _, ⟨List.nodup_append'.2 ⟨?_, orderly.arguments, ?_⟩,
    fun name member => .inl (isOuter name member)⟩,
    ⟨SortedMap.nodup_keys _, fun name member => isBound member⟩⟩
  · split <;> simp
  · intro name control incoming
    split at control
    · obtain rfl := List.mem_singleton.1 control
      exact controlCell_notMem_incomingNames incoming
    · cases control

/-- The end of a function's body binds nothing. -/
theorem sighted_closed {sight : List String → Prop} {other : Scope}
    (sighted : steps.Sighted sight names) :
    ∀ stmt ∈ job.closed other steps, stmt.Sighted sight names := by
  unfold Job.closed
  split
  · exact sighted.stmts
  · exact Script.Sighted.stmts (Script.sighted_append_iff.2 ⟨sighted, .ret, trivial⟩)

theorem gives_keepsApart_loop (orderly : job.Orderly) {label : Label}
    {entries : SortedSet BlockId} {body : Tree} (head : label.head ∈ body.blocks)
    (known : ∃ block ∈ job.method.blocks, block.id = label.head) (apart : done.Disjoint body.blocks)
    (gives : Lower.Gives (·.Within job.setting.program later none)
      (job.tree (scope.insideLoop (job.loopFrame scope label)) body)
        fun answer made => job.Started done (scope.insideLoop (job.loopFrame scope label)) →
          job.KeepsApart later done body.blocks (scope.insideLoop (job.loopFrame scope label))
            answer made) :
    Lower.Gives (·.Within job.setting.program later none)
      (job.tree scope (.loop label entries body))
      fun answer made => job.Started done scope →
        job.KeepsApart later done body.blocks scope answer made := by
  rw [Job.tree]
  refine gives.bind fun inner => Lower.gives_addHelper.bind fun _ => ?_
  refine Lower.Answers.bind (quiet_recurseAfter.yields bindless_recurseAfter) fun recurse =>
    Lower.Answers.bind (quiet_returnAfter.yields bindless_returnAfter) fun leave => .pure ?_
  rintro leaves recurses _ rfl made leads started
  rw [List.append_nil]
  have inside : job.Started done (scope.insideLoop (job.loopFrame scope label)) := started
  obtain ⟨madeApart, clears⟩ := leads inside
  have sees := @sees_loopParams job scope later done orderly (job.loopFrame scope label)
  refine ⟨madeApart.append (List.forall_mem_singleton.2 (.inl ⟨?_, ?_⟩)), ?_⟩
  · exact sees.tellsApart orderly inside
  · exact sighted_closed (clears.keeps _ sees).1
  · refine Clears.behind orderly (Clears.behind orderly ?_ recurses) leaves
    have free : Binds (· = loopResult label) [] scope scope
        (runLoop (job.loopFrame scope label) label) := by
      unfold runLoop
      split
      · exact .of_clear (by simp) ⟨by simp, by simp⟩
      · exact .of_bindless (.stmt fun _ _ => .expr)
    refine .of_binds orderly started apart free (fun name same => ?_) nofun
    obtain ⟨block, member, isHead⟩ := known
    exact .inr ⟨block, member, isHead ▸ head, isHead ▸ same⟩

/-! ## Trees -/

/-- The code of a tree tells the names in sight apart, and so do the functions of its loops. -/
theorem gives_keepsApart_tree {graph : BlockGraph} {forest : LoopForest} {around : Option Loop}
    {NotedAs : Option Loop → Tree → Prop} (orderly : job.Orderly)
    (built : BlockGraph.ofBlocks job.method.entry job.method.blocks = .ok graph)
    (isOf : forest.IsOf graph) {tree : Tree}
    (fits : GotoFree.Fits graph forest NotedAs around tree) (owns : forest.Owns around) :
    ∀ done, done.Disjoint tree.blocks → ∀ scope,
      Lower.Gives (·.Within job.setting.program later none) (job.tree scope tree)
        fun answer made => job.Started done scope →
          job.KeepsApart later done tree.blocks scope answer made := by
  have checked := BlockGraph.checked_ofBlocks built
  induction fits with
  | jump =>
      intro done apart scope
      rw [Tree.blocks_jump] at apart ⊢
      exact gives_keepsApart_jump orderly (List.disjoint_singleton.1 apart)
  | @conditional around label taken notTaken takenTarget notTakenTarget part noted direct branching
      edges takenArm notTakenArm takenLeaves notTakenLeaves takenFits notTakenFits takenIh
      notTakenIh =>
      intro done apart scope
      have distinct := part.distinct
      rw [Tree.blocks_conditional, List.nodup_cons, List.nodup_append'] at distinct
      rw [Tree.blocks_conditional, List.disjoint_cons_right, List.disjoint_append_right] at apart
      obtain ⟨fresh, apartTaken, apartNot⟩ := apart
      obtain ⟨outside, -⟩ := distinct
      rw [List.mem_append, not_or] at outside
      have inside {tree : Tree} (apartTree : done.Disjoint tree.blocks)
          (outsideTree : label.head ∉ tree.blocks) :
          (done ++ [label.head]).Disjoint tree.blocks :=
        List.disjoint_append_left.2 ⟨apartTree, List.singleton_disjoint.2 outsideTree⟩
      refine gives_keepsApart_conditional orderly fresh
        (fun inner =>
          gives_tellsIn_arm (fun tree same => takenIh tree same owns _ ?_ inner) orderly)
        fun inner =>
          gives_tellsIn_arm (fun tree same => notTakenIh tree same owns _ ?_ inner) orderly
      · subst same
        exact inside apartTaken outside.1
      · subst same
        exact inside apartNot outside.2
  | sequence part noted chain flat fits ih =>
      intro done apart scope
      have distinct := part.distinct
      rw [Tree.blocks_sequence] at distinct apart ⊢
      rw [Job.tree]
      exact gives_keepsApart_elems (fun tree member => ih tree member owns)
        distinct done apart scope
  | loop part noted nested head heads whole fits ih =>
      intro done apart scope
      rw [Tree.blocks_loop] at apart ⊢
      have inside := part.heads_mem _ part.head_mem
      obtain ⟨block, found⟩ := BlockGraph.mem_ids_iff.1
        (isOf.blocksOf_known owns (part.inside _ inside))
      have known : ∃ block ∈ job.method.blocks, block.id = _ :=
        ⟨block, (BlockGraph.block_of_ofBlocks built found).1, checked.id_eq found⟩
      exact gives_keepsApart_loop orderly inside known apart
        (ih (LoopForest.owns_some (owns.mem_all (Loop.mem_flattenAll_of_mem nested))) done apart _)
  | merge part noted heads several isEntry incoming_iff leaves fits ih =>
      intro done apart scope
      rw [Tree.blocks_merge] at apart ⊢
      rw [Job.tree]
      refine (gives_tellsIn_alternatives fun tree member => ih tree member owns done
        (fun id isDone inside => apart isDone (List.mem_flatMap.2 ⟨tree, member, inside⟩))
          scope).bind fun stmts => .pure ?_
      intro made hides started
      rw [List.append_nil]
      exact ⟨(hides started).1, .nested started (hides started).2⟩

end Job

end GotoFree
