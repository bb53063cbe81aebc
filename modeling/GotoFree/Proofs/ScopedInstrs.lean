import GotoFree.Proofs.Aliases
import GotoFree.Proofs.ScopedNames

/-!
# Scoped instructions

Wherever the names of a scope are in sight, the values that an instruction computes are scoped
(`Job.Computes`), and the steps that store them are, and bring the names of the scope after it in
sight (`Job.Carries`).
-/

namespace GotoFree

open Target (Context Kinds Pattern Script Signature Step Stmt)

section Values

variable {signatures : List Signature} {context : Context}

/-- A test whether a value is one of some integers is scoped as the value is. -/
theorem Target.Expr.Scoped.anyOf? {value test : Target.Expr} {numbers : List Int}
    (inner : value.Scoped signatures context) (isTest : value.anyOf? numbers = some test) :
    test.Scoped signatures context := by
  have several (tests : Target.Expr) (ofTests : tests.Scoped signatures context)
      (rest : List Int) : (rest.foldl (fun tests number =>
        .binary .or tests (.binary .eq value (.int number))) tests).Scoped signatures context := by
    induction rest generalizing tests with
    | nil => exact ofTests
    | cons number rest ih => exact ih _ (.binary ofTests (.binary inner .int))
  cases numbers with
  | nil => cases isTest
  | cons first rest =>
      cases isTest
      exact several _ (.binary inner .int) rest

/-- The first value of a type mentions no name. -/
theorem Ty.scoped_default {type : Ty} : type.default.Scoped signatures context := by
  cases type with
  | int => exact .int
  | bool => exact .bool
  | ref | array => exact .null
  | void => exact .unit

end Values

/-! ## Slots -/

/-- The pattern of an access binds the cell of the field only. -/
theorem Handle.mem_names_pattern {handle : Handle} {name : String} :
    name ∈ handle.pattern.names ↔ handle.slot < handle.width ∧ name = handle.cell := by
  simp only [pattern, Pattern.names, List.mem_filterMap, List.mem_map, List.mem_range, id]
  constructor
  · rintro ⟨_, ⟨index, inside, rfl⟩, named⟩
    split at named
    · next same => exact ⟨same ▸ inside, (Option.some.inj named).symm⟩
    · cases named
  · rintro ⟨inside, rfl⟩
    exact ⟨_, ⟨handle.slot, inside, rfl⟩, if_pos rfl⟩

namespace ObjectModel

variable {model : ObjectModel} {kinds : Kinds} {signatures : List Signature} {names : List String}
  {handle : Handle}

/-- The steps that name a slot bring it in sight. -/
theorem fits_pattern (inside : handle.slot < handle.width)
    (isSlot : kinds handle.cell = model.slotKind)
    (base : handle.base.Scoped signatures (kinds.of names)) :
    Script.Fits kinds model.slotKind signatures names [.bind handle.pattern handle.base] ∧
      handle.cell ∈ Script.opened names [.bind handle.pattern handle.base] := by
  refine ⟨Script.fits_bindTuple base fun name member => ?_, ?_⟩
  · rw [(Handle.mem_names_pattern.1 member).2, isSlot]
  · exact List.mem_append_left _ (Handle.mem_names_pattern.2 ⟨inside, rfl⟩)

/-- The content of a slot is scoped where the slot has a name. -/
theorem scoped_read (isSlot : kinds handle.cell = model.slotKind) (named : handle.cell ∈ names) :
    (model.read handle).2.Scoped signatures (kinds.of names) := by
  cases model with
  | mutable => exact .contentOf (Kinds.lookup_of_eq_some_iff.2 ⟨named, isSlot⟩)
  | functional => exact .var (Kinds.lookup_of named)

/-- The slots of an object begin with the name of the cell. -/
theorem starts_of_mem_slotNames {name : String} (member : name ∈ slotNames handle) :
    handle.cell.toList <+: name.toList := by
  obtain ⟨index, -, rfl⟩ := List.mem_map.1 member
  simp only [String.toList_append, List.append_assoc]
  exact List.prefix_append _ _

/-- A slot is written through its name, or through the cell of the object's owner. -/
theorem fits_write (inside : handle.slot < handle.width)
    (areSlots : ∀ name : String, handle.cell.toList <+: name.toList →
      kinds name = model.slotKind)
    (base : handle.base.Scoped signatures (kinds.of names)) {owner : Owner}
    (isCell : owner.isCell = true → (kinds.of names).lookup owner.name = some .cell)
    {value : Target.Expr} (ofValue : value.Scoped signatures (kinds.of names)) {steps : Script}
    (written : model.write handle owner value = .ok steps) :
    Script.Fits kinds model.slotKind signatures names steps ∧
      (model = .mutable → handle.cell ∈ Script.opened names steps) := by
  have isSlot := areSlots handle.cell (List.prefix_refl _)
  cases model with
  | mutable =>
      cases written
      obtain ⟨named, member⟩ := fits_pattern inside isSlot base
      refine ⟨⟨named.1, named.2.1, .assign ?_ ?_, trivial⟩, fun _ => member⟩
      · exact Kinds.lookup_of_eq_some_iff.2 ⟨member, isSlot⟩
      · exact ofValue.mono (Kinds.extends_of (List.subset_append_right _ _))
  | functional =>
      unfold write at written
      dsimp only at written
      split at written
      · cases written
      · next isOwner =>
        split at written
        · cases written
        · cases written
          have all : ((slotNames handle).map some).filterMap id = slotNames handle := by
            simp [List.filterMap_map]
          have are : ∀ name ∈ ((slotNames handle).map some).filterMap id, kinds name = .plain := by
            rw [all]
            exact fun name member => areSlots name (starts_of_mem_slotNames member)
          have named := Script.fits_bindTuple base are
          refine ⟨⟨named.1, named.2.1, .assign ?_ (.tuple fun component member => ?_), trivial⟩,
            nofun⟩
          · refine Kinds.extends_of (List.subset_append_right _ _) _ _ (isCell ?_)
            simpa using isOwner
          · rcases List.mem_or_eq_of_mem_set member with member | rfl
            · obtain ⟨name, among, rfl⟩ := List.mem_map.1 member
              refine .var (Kinds.lookup_of (List.mem_append_left _ ?_))
              rwa [Pattern.names, all]
            · exact ofValue.mono (Kinds.extends_of (List.subset_append_right _ _))

end ObjectModel

namespace Job

variable {job : Job} {scope after : Scope} {signatures : List Signature}
  {names more : List String} {name : String} {value : Target.Expr} {source : Instr}

/-- Steps of the code of a method fit. -/
abbrev Fits (job : Job) (signatures : List Signature) (names : List String) (steps : Script) :
    Prop :=
  Script.Fits job.kinds job.setting.model.slotKind signatures names steps

/-- A statement of the code of a method is scoped. -/
abbrev Admits (job : Job) (signatures : List Signature) (names : List String) (stmt : Stmt) :
    Prop :=
  stmt.Scoped job.setting.model.slotKind signatures (job.kinds.of names)

/-- A value uses names in sight, and is not a new cell. -/
structure Ready (job : Job) (signatures : List Signature) (names : List String)
    (value : Target.Expr) : Prop where
  inScope : value.Scoped signatures (job.kinds.of names)
  noCell : ∀ content, value ≠ .mkRef content

/-- What is ready is so where more names are in scope. -/
theorem Ready.mono (ready : job.Ready signatures names value) (subset : names ⊆ more) :
    job.Ready signatures more value :=
  ⟨ready.inScope.mono (Kinds.extends_of subset), ready.noCell⟩

/-- Steps are scoped wherever the names of a scope are in sight, and bring those of another scope in
sight. -/
def Carries (job : Job) (signatures : List Signature) (scope after : Scope) (steps : Script) :
    Prop :=
  ∀ names, job.loopParams scope ⊆ names →
    job.Fits signatures names steps ∧ job.loopParams after ⊆ Script.opened names steps

/-- A value is scoped after the steps before it, and so are the statements after it. -/
structure Computes (job : Job) (signatures : List Signature) (names : List String)
    (computed : Computed) : Prop where
  before : job.Fits signatures names computed.before
  value : job.Ready signatures (Script.opened names computed.before) computed.value
  after : ∀ stmt ∈ computed.after,
    job.Admits signatures (Script.opened names computed.before) stmt

/-- A value that is ready needs no code. -/
theorem Computes.pure (ready : job.Ready signatures names value) :
    job.Computes signatures names (.pure value) :=
  ⟨trivial, ready, nofun⟩

namespace Carries

variable {middle : Scope} {steps others : Script}

theorem nil : job.Carries signatures scope scope [] := fun _ shown => ⟨trivial, shown⟩

/-- Code in a row carries the context on as its parts do. -/
theorem append (first : job.Carries signatures scope middle steps)
    (second : job.Carries signatures middle after others) :
    job.Carries signatures scope after (steps ++ others) := by
  intro names shown
  obtain ⟨fits, reaches⟩ := first names shown
  obtain ⟨fitsOthers, reachesAfter⟩ := second _ reaches
  rw [Script.opened_append]
  exact ⟨Script.fits_append_iff.2 ⟨fits, fitsOthers⟩, reachesAfter⟩

/-- Statements leave the scope as it is. -/
theorem ofStmts {stmts : List Stmt} (admitted : ∀ names, job.loopParams scope ⊆ names →
    ∀ stmt ∈ stmts, job.Admits signatures names stmt) :
    job.Carries signatures scope scope (Script.ofStmts stmts) := by
  intro names shown
  rw [Script.opened_ofStmts]
  exact ⟨Script.fits_ofStmts_iff.2 (admitted names shown), shown⟩

theorem stmt {stmt : Stmt} (admitted : ∀ names, job.loopParams scope ⊆ names →
    job.Admits signatures names stmt) : job.Carries signatures scope scope [.stmt stmt] :=
  fun names shown => ⟨⟨admitted names shown, trivial⟩, shown⟩

/-- The statements of code that carries a context are scoped in it. -/
theorem stmts (carries : job.Carries signatures scope after steps)
    (shown : job.loopParams scope ⊆ names) :
    ∀ stmt ∈ steps.stmts, job.Admits signatures names stmt :=
  (carries names shown).1.stmts

end Carries

/-! ## Names -/

section Names

variable (fair : job.Fair) (planned : job.Planned scope) (shown : job.loopParams scope ⊆ names)

include shown

/-- The control cell is in scope as a cell. -/
theorem lookup_control (has : job.hasControlCell = true) :
    (job.kinds.of names).lookup controlCell = some .cell := by
  have member : controlCell ∈ names := shown (mem_loopParams_iff.2 (.inl ⟨has, rfl⟩))
  rw [Kinds.lookup_of member, kinds_control]

include fair

/-- An argument is in scope as a plain name. -/
theorem lookup_incoming (member : name ∈ job.method.incomingNames) :
    (job.kinds.of names).lookup name = some .plain := by
  have among : name ∈ names := shown (mem_loopParams_iff.2 (.inr (.inl member)))
  rw [Kinds.lookup_of among, fair.kinds_incoming member]

include planned

/-- A bound local is in scope as it is bound. -/
theorem lookup_local {binding : Binding} (bound : scope.binding? name = some binding) :
    (job.kinds.of names).lookup name = some binding.kind := by
  have member : name ∈ names := shown (mem_loopParams_iff.2 (.inr (.inr ⟨binding, bound⟩)))
  rw [Kinds.lookup_of member, fair.kinds_local (planned.bound name binding bound)]

/-- The value of a local is ready. -/
theorem ready_valueOf (found : job.valueOf scope name = .ok value) :
    job.Ready signatures names value := by
  obtain ⟨binding, isBinding, same⟩ := bind_eq_ok_iff.1 found
  cases same
  have known := lookup_local fair planned shown (bindingOf_eq_ok_iff.1 isBinding)
  cases binding with
  | mutable => exact ⟨.contentOf known, nofun⟩
  | const => exact ⟨.var known, nofun⟩

/-- An operand is ready. -/
theorem ready_operand {operand : Operand} (found : job.operand scope operand = .ok value) :
    job.Ready signatures names value := by
  cases operand with
  | var => exact ready_valueOf fair planned shown found
  | int | bool | null =>
      cases found
      exact ⟨by constructor, nofun⟩

end Names

/-! ## Fields -/

section Fields

variable {base : String} {field : FieldRef} {possibleTypes : SortedSet String} {access : Access}
  (fair : job.Fair)

include fair

/-- The names that an access makes up stand for what they are bound to. -/
theorem Opened.kinds_cell (opened : job.Opened scope source base field possibleTypes access)
    (starts : access.handle.cell.toList <+: name.toList) :
    job.kinds name = job.setting.model.slotKind := by
  refine fair.kinds_slot (.trans ?_ starts)
  obtain ⟨ending, same⟩ := opened.cell
  rw [same]
  simp only [String.toList_append]
  exact List.prefix_append _ _

/-- The slot of an access is inside the object. -/
theorem Opened.inside (opened : job.Opened scope source base field possibleTypes access) :
    access.handle.slot < access.handle.width :=
  slotOf_lt fair.roomy opened.place

variable (planned : job.Planned scope) (shown : job.loopParams scope ⊆ names)

include planned shown

/-- The owner of an object is in scope as a cell, if it is one. -/
theorem Opened.lookup_owner (opened : job.Opened scope source base field possibleTypes access)
    (isCell : access.owner.isCell = true) :
    (job.kinds.of names).lookup access.owner.name = some .cell := by
  rw [opened.owner]
  exact lookup_local fair planned shown (opened.isCell_iff.1 isCell)

/-- The object of an access is in sight after the steps before it. -/
theorem Opened.fits_before (opened : job.Opened scope source base field possibleTypes access) :
    job.Fits signatures names access.before ∧ access.handle.base.Scoped signatures
      (job.kinds.of (Script.opened names access.before)) := by
  have shape := opened.before
  split at shape
  · next isCell =>
    obtain ⟨ending, before, isBase⟩ := shape
    have content := lookup_local fair planned shown (opened.isCell_iff.1 isCell)
    rw [before, isBase, String.append_assoc]
    refine ⟨Script.fits_bindName (.contentOf content) nofun ?_, .var (Kinds.lookup_of ?_)⟩
    · exact fair.kinds_stem (by decide) (by decide) (by decide)
    · exact List.mem_append_left _ (List.mem_singleton_self _)
  · obtain ⟨before, isBase, bound⟩ := shape
    rw [before, isBase]
    exact ⟨trivial, .var (lookup_local fair planned shown bound)⟩

/-- The statements after an access are scoped where the slot and the object are in sight. -/
theorem Opened.admits_tieAgain (opened : job.Opened scope source base field possibleTypes access)
    (named : job.setting.model = .mutable → access.handle.cell ∈ names)
    (ofBase : access.handle.base.Scoped signatures (job.kinds.of names)) :
    ∀ stmt ∈ job.setting.model.tieAgain access.handle access.owner,
      job.Admits signatures names stmt := by
  cases isModel : job.setting.model with
  | functional => simp [ObjectModel.tieAgain]
  | mutable =>
      intro stmt member
      rcases List.mem_cons.1 member with rfl | member
      · exact .aliased (.var (Kinds.lookup_of (named isModel))) (.proj ofBase)
      · split at member
        · next isCell =>
          obtain rfl := List.mem_singleton.1 member
          exact .aliased ofBase (.contentOf (opened.lookup_owner fair planned shown isCell))
        · cases member

omit shown

/-- A field is read in the context that is shown. -/
theorem yields_fieldValue :
    Lower.Yields (job.fieldValue scope base field possibleTypes source) fun computed =>
      ∀ signatures names, job.loopParams scope ⊆ names →
        job.Computes signatures names computed := by
  refine yields_openField.bind fun access opened => .pure fun signatures names shown => ?_
  obtain ⟨fits, ofBase⟩ := @Opened.fits_before _ _ signatures _ _ _ _ _ _ fair planned shown opened
  have isSlot := opened.kinds_cell fair (List.prefix_refl _)
  obtain ⟨named, member⟩ := ObjectModel.fits_pattern (opened.inside fair) isSlot ofBase
  have shownAfter : job.loopParams scope ⊆
      Script.opened names (access.before ++ (job.setting.model.read access.handle).1) :=
    List.Subset.trans shown Script.subset_opened
  refine ⟨Script.fits_append_iff.2 ⟨fits, named⟩, ⟨?_, ?_⟩, ?_⟩
  · rw [Script.opened_append]
    exact ObjectModel.scoped_read isSlot member
  · cases isModel : job.setting.model <;> exact nofun
  · refine opened.admits_tieAgain fair planned shownAfter (fun _ => ?_) (ofBase.mono ?_)
    · rw [Script.opened_append]
      exact member
    · rw [Script.opened_append]
      exact Kinds.extends_of Script.subset_opened

end Fields

/-! ## Storing -/

/-- Steps that store a value lead from a scope to another one, and are followed by statements. -/
structure Keeps (job : Job) (scope : Scope) (value : Target.Expr)
    (answer : Script × Scope × List Stmt) : Prop where
  planned : job.Planned answer.2.1
  loop : answer.2.1.loop = scope.loop
  fits : ∀ signatures names, job.loopParams scope ⊆ names → job.Ready signatures names value →
    job.Fits signatures names answer.1 ∧
      job.loopParams answer.2.1 ⊆ Script.opened names answer.1 ∧
      ∀ stmt ∈ answer.2.2, job.Admits signatures (Script.opened names answer.1) stmt

section Storing

variable (fair : job.Fair) (planned : job.Planned scope)

include fair

/-- A local is introduced as what its plan makes of it, and is in sight from then on. -/
theorem fits_introduce {binding : Binding} (member : (name, binding) ∈ job.plan.locals)
    (shown : job.loopParams scope ⊆ names) (ready : job.Ready signatures names value) :
    job.Fits signatures names [binding.introduce name value] ∧
      job.loopParams (scope.bind name binding) ⊆
        Script.opened names [binding.introduce name value] := by
  have kind := fair.kinds_local member
  have opened : Script.opened names [binding.introduce name value] = name :: names := by
    cases binding <;> rfl
  constructor
  · cases binding with
    | mutable => exact Script.fits_bindCell ready.inScope kind
    | const => exact Script.fits_bindName ready.inScope ready.noCell kind
  · intro other among
    rw [opened, List.mem_cons]
    exact (mem_loopParams_bind among).imp_right fun known => shown known

include planned

/-- A store keeps the context. -/
theorem keeps_store {steps : Script} (stored : job.store scope name value = .ok (steps, after)) :
    job.Keeps scope value (steps, after, []) := by
  unfold store at stored
  split at stored
  · next bound =>
    cases stored
    refine ⟨planned, rfl, fun signatures names shown ready => ?_⟩
    exact ⟨⟨.assign (lookup_local fair planned shown bound) ready.inScope, trivial⟩, shown, nofun⟩
  · cases stored
  · next binding unbound postponed =>
    cases stored
    have member := planned.postponed _ _ postponed
    refine ⟨planned.bind member, rfl, fun signatures names shown ready => ?_⟩
    obtain ⟨fits, shownAfter⟩ := fits_introduce fair member shown ready
    exact ⟨fits, shownAfter, nofun⟩
  · cases stored

/-- A store into a field keeps the context. -/
theorem yields_keeps_storeField {base : String} {field : FieldRef}
    {possibleTypes : SortedSet String} :
    Lower.Yields (job.storeField scope base field possibleTypes value source) fun answer =>
      job.Keeps scope value (answer.1, scope, answer.2) := by
  unfold storeField
  refine yields_openField.bind fun access opened => ?_
  split
  · next steps written =>
    refine .pure ⟨planned, rfl, fun signatures names shown ready => ?_⟩
    obtain ⟨fits, ofBase⟩ :=
      @Opened.fits_before _ _ signatures _ _ _ _ _ _ fair planned shown opened
    have shownBefore : job.loopParams scope ⊆ Script.opened names access.before :=
      List.Subset.trans shown Script.subset_opened
    obtain ⟨stores, named⟩ := ObjectModel.fits_write (opened.inside fair)
      (fun name starts => opened.kinds_cell fair starts) ofBase
      (opened.lookup_owner fair planned shownBefore)
      (ready.mono Script.subset_opened).inScope written
    dsimp only
    rw [Script.opened_append]
    refine ⟨Script.fits_append_iff.2 ⟨fits, stores⟩,
      List.Subset.trans shownBefore Script.subset_opened, ?_⟩
    exact opened.admits_tieAgain fair planned (List.Subset.trans shownBefore Script.subset_opened)
      named (ofBase.mono (Kinds.extends_of Script.subset_opened))
  · exact nofun
  · exact .reject

/-- An assignment keeps the context. -/
theorem yields_keeps_assign {place : Place} :
    Lower.Yields (job.assign scope source value place) (job.Keeps scope value) := by
  cases place with
  | var name =>
      exact Lower.Yields.check.bind fun answer stored => .pure (keeps_store fair planned stored)
  | field base field possibleTypes =>
      exact (yields_keeps_storeField fair planned).bind fun answer kept => .pure kept
  | arrayElement base index =>
      refine Lower.Yields.check.bind fun array isArray =>
        Lower.Yields.check.bind fun position isPosition => .pure ⟨planned, rfl, ?_⟩
      intro signatures names shown ready
      exact ⟨⟨.arrayStore (ready_valueOf fair planned shown isArray).inScope
        (ready_operand fair planned shown isPosition).inScope ready.inScope, trivial⟩, shown, nofun⟩

end Storing

/-! ## Values -/

section Computing

variable (fair : job.Fair) (planned : job.Planned scope)

/-- A new object is ready. -/
theorem ready_allocate {className : String} (made : job.allocate className source = .ok value) :
    job.Ready signatures names value := by
  unfold allocate at made
  split at made
  · next tag types _ _ =>
    cases made
    have ofField : ∀ field ∈ types.map fun type => type.elim (.int 0) Ty.default,
        field.Scoped signatures (job.kinds.of names) := by
      intro field member
      obtain ⟨type, -, rfl⟩ := List.mem_map.1 member
      cases type with
      | none => exact .int
      | some type => exact Ty.scoped_default
    cases job.setting.model with
    | functional => exact ⟨.tuple (List.forall_mem_cons.2 ⟨.int, ofField⟩), nofun⟩
    | mutable =>
        refine ⟨.tuple fun cell member => ?_, nofun⟩
        obtain ⟨content, among, rfl⟩ := List.mem_map.1 member
        exact .mkRef (List.forall_mem_cons.2 ⟨.int, ofField⟩ content among)
  · cases made

include fair planned

/-- The end of a path is scoped as its start is. -/
theorem ready_followPath (shown : job.loopParams scope ⊆ names) {path : AccessPath}
    (found : job.followPath scope path source = .ok value) :
    job.Ready signatures names value := by
  obtain ⟨start, isStart, found⟩ := bind_eq_ok_iff.1 found
  have ready := @ready_valueOf _ _ signatures _ _ _ fair planned shown isStart
  clear isStart
  generalize path.fields = fields at found
  induction fields generalizing start with
  | nil =>
      cases found
      exact ready
  | cons field rest ih =>
      obtain ⟨next, here, later⟩ := bind_eq_ok_iff.1 found
      obtain ⟨place, -, same⟩ := bind_eq_ok_iff.1 here
      cases same
      refine ih _ ?_ later
      cases job.setting.model with
      | mutable => exact ⟨.deref nofun (.proj ready.inScope), nofun⟩
      | functional => exact ⟨.proj ready.inScope, nofun⟩

/-- An argument is passed in the context that is shown. -/
theorem computes_pass (shown : job.loopParams scope ⊆ names) {temporaries : Temporaries}
    {operand : Operand} {position : Nat} {computed : Computed}
    (made : job.pass scope temporaries operand position = .ok computed) :
    job.Computes signatures names computed := by
  rcases pass_cases made with ⟨name, rfl, isCell, rfl⟩ | ⟨-, value, isValue, rfl⟩
  · have content (more : List String) (shown : job.loopParams scope ⊆ more) :=
      lookup_local fair planned shown (mutable_of_isObjectCell isCell)
    have named : temporaries.argument position ∈
        Script.opened names [Script.bindName (temporaries.argument position) (.contentOf name)] :=
      List.mem_append_left _ (List.mem_singleton_self _)
    refine ⟨Script.fits_bindName (.contentOf (content _ shown)) nofun ?_,
      ⟨.var (Kinds.lookup_of named), nofun⟩, List.forall_mem_singleton.2 ?_⟩
    · unfold Temporaries.argument
      rw [String.append_assoc, String.append_assoc]
      exact fair.kinds_stem (by decide) (by decide) (by decide)
    · exact .aliased (.var (Kinds.lookup_of named))
        (.contentOf (content _ (List.Subset.trans shown Script.subset_opened)))
  · exact .pure (ready_operand fair planned shown isValue)

/-- The arguments of a call are passed under names that are bound before it. -/
theorem computes_args (shown : job.loopParams scope ⊆ names) {temporaries : Temporaries}
    {operands : List (Operand × Nat)} {args : List Computed}
    (made : List.Forall₂ (fun (entry : Operand × Nat) arg =>
      job.pass scope temporaries entry.1 entry.2 = .ok arg) operands args) :
    job.Fits signatures names (args.flatMap Computed.before) ∧
      (∀ value ∈ args.map Computed.value,
        job.Ready signatures (Script.opened names (args.flatMap Computed.before)) value) ∧
      ∀ stmt ∈ args.flatMap Computed.after,
        job.Admits signatures (Script.opened names (args.flatMap Computed.before)) stmt := by
  induction made generalizing names with
  | nil => exact ⟨trivial, nofun, nofun⟩
  | @cons entry arg operands args pass others ih =>
      obtain ⟨before, ready, after⟩ :=
        @computes_pass _ _ signatures _ fair planned shown _ _ _ _ pass
      obtain ⟨more, values, closing⟩ := ih (List.Subset.trans shown Script.subset_opened)
      rw [List.flatMap_cons, List.flatMap_cons, List.map_cons, Script.opened_append]
      refine ⟨Script.fits_append_iff.2 ⟨before, more⟩, List.forall_mem_cons.2 ⟨?_, values⟩,
        List.forall_mem_append.2 ⟨fun stmt member => ?_, closing⟩⟩
      · exact ready.mono Script.subset_opened
      · exact (after stmt member).mono (Kinds.extends_of Script.subset_opened)

end Computing

end Job

end GotoFree
