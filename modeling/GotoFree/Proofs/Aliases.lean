import GotoFree.Proofs.Answers
import GotoFree.Proofs.Names

/-!
# Aliases after an instruction

An access to the object in a cell reads the content of the cell into a temporary, and states behind
the instruction that the temporary is the content again. The statement is truthful if nothing was
assigned to the cell in between (`Script.Truthful`). It is not where the instruction itself assigns
to the local (`Job.truthful_instr_iff`).
-/

namespace GotoFree

open Target (Script Stmt Step)

/-! ## Truthful aliases -/

namespace Target.Script

/-- Every statement that a name is the content of a cell stands behind the binding of the name to
that content, and nothing in between assigns to the cell. -/
def Truthful (script : Script) : Prop :=
  ∀ front back name cell,
    script = front ++ .stmt (.aliased (.var name) (.contentOf cell)) :: back →
      ∃ before after, front = before ++ bindName name (.contentOf cell) :: after ∧
        ∀ value, assign cell value ∉ after

/-- A step that states that a name is the content of a cell. -/
def aliasOf (name cell : String) : Step := .stmt (.aliased (.var name) (.contentOf cell))

/-- A script that ties no name back is truthful. -/
theorem truthful_of_plain {script : Script} (plain : ∀ name cell, aliasOf name cell ∉ script) :
    Truthful script := by
  rintro front back name cell rfl
  exact absurd (by simp [aliasOf]) (plain name cell)

theorem bindName_notMem_ofStmts {stmts : List Stmt} {name : String} {value : Target.Expr} :
    bindName name value ∉ ofStmts stmts := by
  simp [ofStmts, bindName]

/-- Where all aliases stand behind everything else, they are truthful if the names are bound to the
contents and nothing later assigns to the cells. -/
theorem truthful_append_iff {opening : Script} {closing : List Stmt}
    (plain : ∀ name cell, aliasOf name cell ∉ opening)
    (aliases : ∀ stmt ∈ closing, ∃ left right, stmt = .aliased left right) :
    Truthful (opening ++ ofStmts closing) ↔
      ∀ name cell, Stmt.aliased (.var name) (.contentOf cell) ∈ closing →
        ∃ before after, opening = before ++ bindName name (.contentOf cell) :: after ∧
          ∀ value, assign cell value ∉ after := by
  constructor
  · intro truthful name cell member
    obtain ⟨earlier, later, rfl⟩ := List.append_of_mem member
    obtain ⟨before, after, same, unassigned⟩ := truthful (opening ++ ofStmts earlier)
      (ofStmts later) name cell (by simp [ofStmts])
    rcases List.append_eq_append_iff.1 same with ⟨middle, -, rest⟩ | ⟨middle, rfl, rest⟩
    · exact absurd (rest ▸ by simp) (@bindName_notMem_ofStmts earlier name (.contentOf cell))
    · cases middle with
      | nil =>
          have among : bindName name (.contentOf cell) ∈ [] ++ ofStmts earlier := rest ▸ by simp
          exact absurd among bindName_notMem_ofStmts
      | cons first others =>
          obtain ⟨rfl, rfl⟩ := List.cons.inj rest
          exact ⟨before, others, rfl, fun value member =>
            unassigned value (List.mem_append_left _ member)⟩
  · intro bound front back name cell same
    obtain ⟨middle, rfl, rest⟩ : ∃ middle, front = opening ++ middle ∧
        ofStmts closing = middle ++ aliasOf name cell :: back := by
      rcases List.append_eq_append_iff.1 same with found | ⟨middle, rfl, rest⟩
      · exact found
      · cases middle with
        | nil => exact ⟨[], by simp, rest.symm⟩
        | cons first others =>
            obtain ⟨rfl, -⟩ := List.cons.inj rest
            exact absurd (by simp [aliasOf]) (plain name cell)
    have member : aliasOf name cell ∈ ofStmts closing := rest ▸ by simp
    obtain ⟨before, after, rfl, unassigned⟩ := bound name cell (by
      simpa [ofStmts, aliasOf] using member)
    refine ⟨before, after ++ middle, by simp, fun value member => ?_⟩
    rcases List.mem_append.1 member with member | member
    · exact unassigned value member
    · have among : assign cell value ∈ ofStmts closing := rest ▸ List.mem_append_left _ member
      obtain ⟨stmt, listed, isAssign⟩ := List.mem_map.1 among
      obtain ⟨left, right, rfl⟩ := aliases stmt listed
      cases isAssign

end Target.Script

/-! ## What an instruction ties -/

/-- Steps that name the contents of some cells, and statements for later that tie the names to the
cells again. -/
structure Ties (opening : Script) (closing : List Stmt) (tied : String → Prop) : Prop where
  plain : ∀ name cell, Script.aliasOf name cell ∉ opening
  aliases : ∀ stmt ∈ closing, ∃ left right, stmt = .aliased left right
  bound : ∀ name cell, Stmt.aliased (.var name) (.contentOf cell) ∈ closing →
    Script.bindName name (.contentOf cell) ∈ opening
  tied_iff : ∀ cell, (∃ name, Stmt.aliased (.var name) (.contentOf cell) ∈ closing) ↔ tied cell

namespace Ties

variable {opening more : Script} {closing later : List Stmt} {tied others : String → Prop}

/-- Code without ties ties no cell. -/
theorem nil (plain : ∀ name cell, Script.aliasOf name cell ∉ opening) :
    Ties opening [] fun _ => False :=
  ⟨plain, by simp, by simp, by simp⟩

/-- The cells that are tied may be described in another way. -/
theorem congr (ties : Ties opening closing tied) (same : ∀ cell, others cell ↔ tied cell) :
    Ties opening closing others :=
  ⟨ties.plain, ties.aliases, ties.bound, fun cell => (ties.tied_iff cell).trans (same cell).symm⟩

/-- A name for the content of a cell that is tied to it again. -/
theorem single {name cell : String} :
    Ties [Script.bindName name (.contentOf cell)] [.aliased (.var name) (.contentOf cell)]
      fun other => other = cell where
  plain := by simp [Script.aliasOf, Script.bindName]
  aliases := by simp
  bound := by simp [Target.Expr.contentOf]
  tied_iff := by simp [Target.Expr.contentOf]

/-- Code in a row ties what its parts tie. -/
theorem append (first : Ties opening closing tied) (second : Ties more later others) :
    Ties (opening ++ more) (closing ++ later) fun cell => tied cell ∨ others cell where
  plain name cell member := by
    rcases List.mem_append.1 member with member | member
    · exact first.plain name cell member
    · exact second.plain name cell member
  aliases stmt member := by
    rcases List.mem_append.1 member with member | member
    · exact first.aliases stmt member
    · exact second.aliases stmt member
  bound name cell member := by
    rcases List.mem_append.1 member with member | member
    · exact List.mem_append_left _ (first.bound name cell member)
    · exact List.mem_append_right _ (second.bound name cell member)
  tied_iff cell := by
    simp only [List.mem_append, exists_or, first.tied_iff, second.tied_iff]

/-- Nothing is tied falsely if no step assigns to a tied cell. -/
theorem truthful (ties : Ties opening closing tied)
    (unassigned : ∀ cell, tied cell → ∀ value, Script.assign cell value ∉ opening) :
    Script.Truthful (opening ++ Script.ofStmts closing) := by
  rw [Script.truthful_append_iff ties.plain ties.aliases]
  intro name cell member
  obtain ⟨before, after, rfl⟩ := List.append_of_mem (ties.bound name cell member)
  refine ⟨before, after, rfl, fun value assigned => ?_⟩
  exact unassigned cell ((ties.tied_iff cell).1 ⟨name, member⟩) value (by simp [assigned])

/-- A tied cell that the last step assigns to is tied falsely. -/
theorem not_truthful {value : Target.Expr} {cell : String}
    (ties : Ties (opening ++ [Script.assign cell value]) closing tied) (isTied : tied cell) :
    ¬ Script.Truthful (opening ++ [Script.assign cell value] ++ Script.ofStmts closing) := by
  rw [Script.truthful_append_iff ties.plain ties.aliases]
  intro truthful
  obtain ⟨name, member⟩ := (ties.tied_iff cell).2 isTied
  obtain ⟨before, after, same, unassigned⟩ := truthful name cell member
  have last := congrArg List.getLast? same
  rw [List.getLast?_concat, List.getLast?_append_cons] at last
  cases after with
  | nil => cases last
  | cons first rest =>
      rw [List.getLast?_cons_cons] at last
      exact unassigned value (List.mem_of_getLast? last.symm)

end Ties

/-- A write names slots of the object, and then assigns to the cell of the slot in the mutable
model and to the owner of the object in the functional one. -/
theorem ObjectModel.exists_write {model : ObjectModel} {handle : Handle}
    {owner : Owner} {value : Target.Expr} {steps : Script}
    (written : model.write handle owner value = .ok steps) :
    ∃ pattern content, steps = [.bind pattern handle.base,
      Script.assign (if model = .mutable then handle.cell else owner.name) content] := by
  cases model with
  | mutable =>
      cases written
      exact ⟨_, _, rfl⟩
  | functional =>
      simp only [ObjectModel.write] at written
      split at written
      · cases written
      · split at written
        · cases written
        · cases written
          exact ⟨_, _, rfl⟩

namespace Job

variable {job : Job} {scope : Scope} {source : Instr} {final : Progress}

/-- An access to the object in a cell ties a name to the cell. -/
def isTiedBase (job : Job) (scope : Scope) (base cell : String) : Prop :=
  base = cell ∧ job.setting.model = .mutable ∧ scope.binding? cell = some .mutable

/-- A value is computed with names tied to a cell: the base of a field access in the mutable model,
or an object that is passed to a call. -/
def tiesOf (job : Job) (scope : Scope) (source : Instr) : Expr → String → Prop
  | .fieldRead base _ _, cell => job.isTiedBase scope base cell
  | .call site, cell => ∃ operands, job.operandsOf site source = .ok operands ∧
      .var cell ∈ operands ∧ job.isObjectCell scope (.var cell) = .ok true
  | _, _ => False

/-- A local has a binding where the scope has one for it. -/
theorem bindingOf_eq_ok_iff {name : String} {binding : Binding} :
    job.bindingOf scope name = .ok binding ↔ scope.binding? name = some binding := by
  unfold bindingOf
  split <;> simp_all

/-- A temporary of a reserved stem is a reserved name. -/
theorem isReserved_fresh {stem name : String} (reserved : IsReserved stem)
    (named : ∃ ending, name = stem ++ "_" ++ ending) : IsReserved name := by
  obtain ⟨ending, rfl⟩ := named
  exact (reserved.append _).append _

/-- An access to a field of the object that a local holds has been opened: the object in a cell is
named. -/
structure Opened (job : Job) (scope : Scope) (source : Instr) (base : String) (field : FieldRef)
    (possibleTypes : SortedSet String) (access : Access) : Prop where
  place : job.slotOf field possibleTypes source =
    .ok ⟨access.handle.slot, access.handle.width⟩
  owner : access.owner.name = base
  cell : ∃ ending, access.handle.cell = "__field" ++ "_" ++ ending
  isCell_iff : access.owner.isCell = true ↔ scope.binding? base = some .mutable
  before : if access.owner.isCell then ∃ ending,
      access.before = [Script.bindName ("__base_ptr" ++ "_" ++ ending) (.contentOf base)] ∧
        access.handle.base = .var ("__base_ptr" ++ "_" ++ ending)
    else access.before = [] ∧ access.handle.base = .var base ∧ scope.binding? base = some .const

section Opened

variable {base : String} {field : FieldRef} {possibleTypes : SortedSet String} {access : Access}

/-- An access to a field names the cell of the field, and reads the object before. -/
theorem yields_openField :
    Lower.Yields (job.openField scope base field possibleTypes source)
      (job.Opened scope source base field possibleTypes) := by
  unfold openField
  refine Lower.Yields.check.bind fun place isPlace =>
    Lower.Yields.check.bind fun binding found => ?_
  have bound := bindingOf_eq_ok_iff.1 found
  cases binding with
  | mutable =>
      refine Lower.yields_fresh.bind fun object isObject =>
        Lower.yields_fresh.bind fun cell named => ?_
      obtain ⟨ending, rfl⟩ := isObject
      exact .pure ⟨isPlace, rfl, named, by simp [bound], ending, rfl, rfl⟩
  | const =>
      refine Lower.yields_fresh.bind fun cell named => .pure ?_
      exact ⟨isPlace, rfl, named, by simp [bound], rfl, rfl, bound⟩

/-- The cell of a field has a reserved name. -/
theorem Opened.isReserved_cell
    (opened : job.Opened scope source base field possibleTypes access) :
    IsReserved access.handle.cell :=
  isReserved_fresh (by decide) opened.cell

/-- What stands before an access only names the object. -/
theorem Opened.notMem_before
    (opened : job.Opened scope source base field possibleTypes access) {stmt : Stmt} :
    Step.stmt stmt ∉ access.before := by
  have shape := opened.before
  split at shape
  · obtain ⟨ending, same, -⟩ := shape
    simp [same, Script.bindName]
  · simp [shape.1]

/-- An access ties the name of the object to the cell that holds it, in the mutable model. -/
theorem Opened.ties (opened : job.Opened scope source base field possibleTypes access)
    {steps : Script} (plain : ∀ name cell, Script.aliasOf name cell ∉ steps) :
    Ties (access.before ++ steps) (job.setting.model.tieAgain access.handle access.owner)
      (job.isTiedBase scope base) := by
  have opening (name cell : String) : Script.aliasOf name cell ∉ access.before ++ steps := by
    rw [List.mem_append, not_or]
    exact ⟨opened.notMem_before, plain name cell⟩
  cases isModel : job.setting.model with
  | functional =>
      refine ⟨opening, by simp [ObjectModel.tieAgain], by simp [ObjectModel.tieAgain], ?_⟩
      simp [ObjectModel.tieAgain, isTiedBase, isModel]
  | mutable =>
      have shape := opened.before
      have isCell_iff := opened.isCell_iff
      split at shape
      · next isCell =>
        obtain ⟨ending, same, named⟩ := shape
        refine ⟨opening, ?_, ?_, fun cell => ?_⟩
        · simp [ObjectModel.tieAgain, isCell]
        · simp only [ObjectModel.tieAgain, isCell, if_true, named, opened.owner, same]
          simp [Target.Expr.contentOf, Script.bindName]
        · have isMutable := isCell_iff.1 isCell
          simp only [ObjectModel.tieAgain, isCell, if_true, named, opened.owner, isTiedBase,
            isModel]
          simp only [Target.Expr.contentOf, List.mem_cons, Stmt.aliased.injEq, reduceCtorEq,
            and_false,
            Target.Expr.var.injEq, Target.Expr.deref.injEq, List.not_mem_nil, or_false, false_or,
            exists_eq_left, true_and]
          constructor
          · rintro rfl
            exact ⟨rfl, isMutable⟩
          · exact fun tied => tied.1.symm
      · next isName =>
        refine ⟨opening, ?_, ?_, fun cell => ?_⟩
        · simp [ObjectModel.tieAgain, isName]
        · simp [ObjectModel.tieAgain, isName, Target.Expr.contentOf]
        · have fixed := fun isMutable => isName (isCell_iff.2 isMutable)
          simp [ObjectModel.tieAgain, isName, isTiedBase, isModel, Target.Expr.contentOf]
          rintro rfl
          exact fixed

end Opened

/-- Only a local in a cell is taken for the cell of an object. -/
theorem mutable_of_isObjectCell {name : String}
    (isCell : job.isObjectCell scope (.var name) = .ok true) :
    scope.binding? name = some .mutable := by
  unfold isObjectCell at isCell
  dsimp only at isCell
  split at isCell
  · assumption
  all_goals cases isCell

/-- An argument is passed under a name if it is an object in a cell, and as it is otherwise. -/
theorem pass_cases {temporaries : Temporaries} {operand : Operand} {position : Nat}
    {computed : Computed} (made : job.pass scope temporaries operand position = .ok computed) :
    (∃ name, operand = .var name ∧ job.isObjectCell scope operand = .ok true ∧
      computed = ⟨[Script.bindName (temporaries.argument position) (.contentOf name)],
        .var (temporaries.argument position),
        [.aliased (.var (temporaries.argument position)) (.contentOf name)]⟩) ∨
    (job.isObjectCell scope operand = .ok false ∧
      ∃ value, job.operand scope operand = .ok value ∧ computed = .pure value) := by
  unfold pass at made
  obtain ⟨isCell, found, made⟩ := bind_eq_ok_iff.1 made
  cases isCell with
  | true =>
      cases operand with
      | var name => exact .inl ⟨name, rfl, found, (Except.ok.inj made).symm⟩
      | int | bool | null => cases found
  | false =>
      have plain : (job.operand scope operand >>= fun value => pure (Computed.pure value)) =
          .ok computed := by
        cases operand <;> exact made
      obtain ⟨value, isValue, same⟩ := bind_eq_ok_iff.1 plain
      exact .inr ⟨found, value, isValue, (Except.ok.inj same).symm⟩

/-- The arguments of a call tie names to the cells of the objects among them. -/
theorem ties_args {temporaries : Temporaries} {operands : List (Operand × Nat)}
    {args : List Computed} (made : List.Forall₂
      (fun (entry : Operand × Nat) arg => job.pass scope temporaries entry.1 entry.2 = .ok arg)
      operands args) :
    Ties (args.flatMap Computed.before) (args.flatMap Computed.after)
        (fun cell => .var cell ∈ operands.map Prod.fst ∧
          job.isObjectCell scope (.var cell) = .ok true) ∧
      ∀ name value, Script.assign name value ∉ args.flatMap Computed.before := by
  induction made with
  | nil => simpa using Ties.nil (by simp)
  | @cons entry arg operands args pass others ih =>
      obtain ⟨operand, position⟩ := entry
      rw [List.flatMap_cons, List.flatMap_cons]
      rcases pass_cases pass with ⟨name, rfl, isCell, rfl⟩ | ⟨isValue, value, -, rfl⟩
      · refine ⟨(Ties.single.append ih.1).congr fun cell => ?_, fun other value => ?_⟩
        · rw [List.map_cons, List.mem_cons, or_and_right, Operand.var.injEq]
          refine or_congr_left ⟨fun both => both.1, ?_⟩
          rintro rfl
          exact ⟨rfl, isCell⟩
        · rw [List.mem_append, not_or]
          exact ⟨by simp [Script.assign, Script.bindName], ih.2 other value⟩
      · refine ⟨ih.1.congr fun cell => ?_, ih.2⟩
        rw [List.map_cons, List.mem_cons, or_and_right, or_iff_right]
        rintro ⟨rfl, isCell⟩
        cases isValue.symm.trans isCell

/-- A call ties its arguments back, and assigns nothing before it. -/
theorem yields_call {site : Call} :
    Lower.Yields (job.call scope site source) fun answer => ∀ computed ∈ answer,
      Ties computed.before computed.after (job.tiesOf scope source (.call site)) ∧
        ∀ name value, Script.assign name value ∉ computed.before := by
  unfold call
  refine Lower.Yields.skip fun callee => ?_
  split
  · exact .pure (by simp)
  · refine Lower.Yields.check.bind fun operands isOperands => Lower.Yields.skip fun progress => ?_
    refine Lower.Yields.check.bind fun args passed => .pure ?_
    rintro _ ⟨⟩
    obtain ⟨ties, unassigned⟩ := ties_args (mapM_eq_ok_iff.1 passed)
    refine ⟨ties.congr fun cell => ?_, unassigned⟩
    rw [List.zipIdx_map_fst]
    exact ⟨fun ⟨_, same, tied⟩ => Except.ok.inj (same.symm.trans isOperands) ▸ tied,
      fun tied => ⟨operands, isOperands, tied⟩⟩

/-- The steps before a value only bind names, and tie some of them. -/
theorem yields_expr {value : Expr} :
    Lower.Yields (job.expr scope source value) fun computed =>
      Ties computed.before computed.after (job.tiesOf scope source value) ∧
        ∀ name value, Script.assign name value ∉ computed.before := by
  have plain (value : Target.Expr) :
      Ties (Computed.pure value).before (Computed.pure value).after (fun _ => False) ∧
        ∀ name content, Script.assign name content ∉ (Computed.pure value).before :=
    ⟨.nil (by simp [Computed.pure]), by simp [Computed.pure]⟩
  cases value with
  | use operand | unary _ operand | newArray _ operand =>
      exact Lower.Yields.skip fun value => .pure (plain _)
  | binary | arrayRead =>
      exact Lower.Yields.skip fun first => Lower.Yields.skip fun second => .pure (plain _)
  | fieldRead base field possibleTypes =>
      refine yields_openField.bind fun access opened => .pure ⟨opened.ties ?_, ?_⟩
      · simp [Script.aliasOf]
      · intro name value member
        rcases List.mem_append.1 member with member | member
        · exact opened.notMem_before member
        · simp [Script.assign] at member
  | arrayLength | new => exact Lower.Yields.skip fun value => .pure (plain _)
  | call site =>
      refine yields_call.bind fun answer ties => ?_
      split
      · next computed => exact .pure (ties computed rfl)
      · exact .reject
  | nondet => exact .pure (plain _)
  | cast operand type =>
      unfold expr
      dsimp only
      split
      · exact Lower.Yields.skip fun value => .pure (plain _)
      · exact .reject
  | unmodelled => exact .reject

/-! ## What an instruction assigns to -/

/-- Storing into a place ties a name to a cell. -/
def tiesAt (job : Job) (scope : Scope) : Place → String → Prop
  | .field base _ _, cell => job.isTiedBase scope base cell
  | .var _, _ | .arrayElement .., _ => False

/-- Storing into a place assigns to the cell of a local. -/
def assignsAt (job : Job) (scope : Scope) : Place → String → Prop
  | .var name, cell => name = cell ∧ scope.binding? cell = some .mutable
  | .field base _ _, cell => base = cell ∧ job.setting.model = .functional
  | .arrayElement .., _ => False

/-- Of all cells of locals, the steps that store into a place assign to that of the place only, and
do so last. -/
structure Stores (job : Job) (scope : Scope) (place : Place) (steps : Script) : Prop where
  only : ∀ cell value, Script.assign cell value ∈ steps → ¬ IsReserved cell →
    job.assignsAt scope place cell
  last : ∀ cell, job.assignsAt scope place cell →
    ∃ front value, steps = front ++ [Script.assign cell value]

/-- A store into a local ties nothing and assigns that local. -/
theorem stores_store {name : String} {value : Target.Expr} {steps : Script} {after : Scope}
    (made : job.store scope name value = .ok (steps, after)) :
    (∀ alias_ cell, Script.aliasOf alias_ cell ∉ steps) ∧ job.Stores scope (.var name) steps := by
  unfold store at made
  split at made
  · next bound =>
    cases made
    refine ⟨by simp [Script.aliasOf, Script.assign], ?_, ?_⟩
    · rintro cell content member -
      obtain ⟨rfl, -⟩ : cell = name ∧ content = value := by simpa [Script.assign] using member
      exact ⟨rfl, bound⟩
    · rintro cell ⟨rfl, -⟩
      exact ⟨[], value, rfl⟩
  · cases made
  · next binding unbound postponed =>
    cases made
    have isBind : ∃ content, binding.introduce name value = Script.bindName name content := by
      cases binding
      · exact ⟨_, rfl⟩
      · exact ⟨_, rfl⟩
    obtain ⟨content, same⟩ := isBind
    refine ⟨by simp [same, Script.aliasOf, Script.bindName], ?_, ?_⟩
    · simp [same, Script.assign, Script.bindName]
    · rintro cell ⟨rfl, bound⟩
      cases unbound.symm.trans bound
  · cases made

/-- A store into a field ties the object again if it was read from a cell. -/
theorem yields_storeField {base : String} {field : FieldRef} {possibleTypes : SortedSet String}
    {value : Target.Expr} :
    Lower.Yields (job.storeField scope base field possibleTypes value source) fun answer =>
      Ties answer.1 answer.2 (job.isTiedBase scope base) ∧
        job.Stores scope (.field base field possibleTypes) answer.1 := by
  unfold storeField
  refine yields_openField.bind fun access opened => ?_
  split
  · next steps written =>
    obtain ⟨pattern, content, rfl⟩ := ObjectModel.exists_write written
    refine .pure ⟨opened.ties (by simp [Script.aliasOf, Script.assign]), ?_, ?_⟩
    · intro cell other member free
      rcases List.mem_append.1 member with member | member
      · exact absurd member opened.notMem_before
      · obtain ⟨rfl, -⟩ : cell = _ ∧ other = content := by simpa [Script.assign] using member
        cases isModel : job.setting.model with
        | mutable =>
            rw [if_pos isModel] at free
            exact absurd opened.isReserved_cell free
        | functional =>
            rw [if_neg nofun, opened.owner]
            exact ⟨rfl, isModel⟩
    · rintro cell ⟨rfl, isFunctional⟩
      rw [if_neg (by simp [isFunctional]), opened.owner]
      exact ⟨_, _, List.append_cons _ _ _⟩
  · exact nofun
  · exact .reject

/-- An assignment ties what its place demands, and stores at that place only. -/
theorem yields_assign {place : Place} {value : Target.Expr} :
    Lower.Yields (job.assign scope source value place) fun answer =>
      Ties answer.1 answer.2.2 (job.tiesAt scope place) ∧ job.Stores scope place answer.1 := by
  cases place with
  | var name =>
      refine Lower.Yields.check.bind fun answer made => .pure ?_
      have stores := stores_store made
      exact ⟨.nil stores.1, stores.2⟩
  | field base field possibleTypes =>
      exact yields_storeField.bind fun answer stored => .pure stored
  | arrayElement base index =>
      refine Lower.Yields.skip fun array => Lower.Yields.skip fun position => .pure ?_
      exact ⟨.nil (by simp [Script.aliasOf]), by simp [Script.assign], by simp [assignsAt]⟩

/-! ## Instructions -/

/-- An instruction reads the content of a cell into a name that it ties to the cell again. -/
def ties (job : Job) (scope : Scope) (source : Instr) : String → Prop :=
  match source with
  | .assign place value => fun cell =>
      job.tiesOf scope source value cell ∨ job.tiesAt scope place cell
  | .branch value => job.tiesOf scope source value
  | .call site => job.tiesOf scope source (.call site)
  | .identity .. | .goto | .ret _ | .nop _ | .throw _ | .aliased .. => fun _ => False

/-- An instruction assigns to the cell of a local. -/
def reassigns (job : Job) (scope : Scope) : Instr → String → Prop
  | .assign place _, cell => job.assignsAt scope place cell
  | .identity .., _ | .branch _, _ | .goto, _ | .ret _, _ | .call _, _ | .nop _, _ | .throw _, _
  | .aliased .., _ => False

/-- A cell that is tied belongs to a mutable local. -/
theorem mutable_of_ties {cell : String} (tied : job.ties scope source cell) :
    scope.binding? cell = some .mutable := by
  have value {value : Expr} (tied : job.tiesOf scope source value cell) :
      scope.binding? cell = some .mutable := by
    cases value with
    | fieldRead => exact tied.2.2
    | call site =>
        obtain ⟨-, -, -, isCell⟩ := tied
        exact mutable_of_isObjectCell isCell
    | _ => cases tied
  cases source with
  | assign place _ =>
      rcases tied with tied | tied
      · exact value tied
      · cases place with
        | field => exact tied.2.2
        | var | arrayElement => cases tied
  | branch => exact value tied
  | call site => exact @value (.call site) tied
  | _ => cases tied

/-- The statements by which an assignment ties names to cells again are truthful exactly if it does
not itself assign to one of the cells. -/
theorem yields_assignment {place : Place} {value : Expr}
    (free : ∀ name, (scope.binding? name).isSome = true → ¬ IsReserved name) :
    Lower.Yields (job.plainInstr scope (.assign place value)) fun answer =>
      (answer.1.Truthful ↔ ∀ cell, job.ties scope (.assign place value) cell →
        ¬ job.reassigns scope (.assign place value) cell) := by
  refine yields_expr.bind fun computed named => yields_assign.bind fun answer stored => .pure ?_
  obtain ⟨steps, inside, after⟩ := answer
  obtain ⟨namedTies, unassigned⟩ := named
  obtain ⟨storedTies, stores⟩ := stored
  have ties := namedTies.append storedTies
  constructor
  · intro truthful cell tied assigned
    obtain ⟨front, content, rfl⟩ := stores.last cell assigned
    rw [← List.append_assoc] at ties truthful
    exact ties.not_truthful tied truthful
  · intro kept
    refine ties.truthful fun cell tied content member => ?_
    rcases List.mem_append.1 member with member | member
    · exact unassigned cell content member
    · have isMutable := @mutable_of_ties job scope (.assign place value) cell tied
      exact kept cell tied (stores.only cell content member (free cell (by simp [isMutable])))

/-- A call whose value is not used ties names truthfully. -/
theorem yields_discarded {site : Call} :
    Lower.Yields (job.plainInstr scope (.call site)) fun answer => answer.1.Truthful := by
  refine yields_call.bind fun answer named => ?_
  split
  · next computed =>
    obtain ⟨ties, unassigned⟩ := named computed rfl
    have used : Ties (computed.before ++ [.stmt (.expr computed.value)]) (computed.after ++ [])
        fun cell => job.tiesOf scope (.call site) (.call site) cell ∨ False :=
      ties.append (.nil (by simp [Script.aliasOf]))
    rw [List.append_nil] at used
    refine .pure (used.truthful fun cell _ content member => ?_)
    rcases List.mem_append.1 member with member | member
    · exact unassigned cell content member
    · simp [Script.assign] at member
  · exact .pure (Script.truthful_of_plain (by simp))

/-- The aliases before a return are about arguments, which are not in cells. -/
theorem yields_ret {id : BlockId} {value : Option Operand} :
    Lower.Yields (job.ret scope id value) Script.Truthful := by
  have recorded : Lower.Yields (job.record ⟨id, .exit⟩) fun code =>
      ∀ name cell, Script.aliasOf name cell ∉ code := by
    unfold record
    split
    · exact Lower.Yields.skip fun flag => .pure (by simp [Script.aliasOf, Script.assign])
    · exact .pure (by simp)
  have returned (name cell : String) :
      Script.aliasOf name cell ∉ Script.ofStmts (job.returnAliases scope) := by
    intro member
    obtain ⟨stmt, among, same⟩ := List.mem_map.1 member
    obtain ⟨param, -, made⟩ := List.mem_filterMap.1 among
    cases same
    obtain ⟨target, -, made⟩ := Option.bind_eq_some_iff.1 made
    split at made
    · cases made
    · cases made
  have whole (result : Target.Expr) : Lower.Yields (job.record ⟨id, .exit⟩ >>= fun recording =>
      pure (recording ++ Script.ofStmts (job.returnAliases scope) ++ [Script.ret result]))
      Script.Truthful := by
    refine recorded.bind fun code plain => .pure ?_
    refine Script.truthful_of_plain fun name cell member => ?_
    rw [List.mem_append, List.mem_append] at member
    rcases member with (member | member) | member
    · exact plain name cell member
    · exact returned name cell member
    · simp [Script.aliasOf, Script.ret] at member
  cases value with
  | none => exact whole .unit
  | some operand => exact Lower.Yields.skip fun result => whole result

/-- The statements by which an instruction ties names to cells again are truthful exactly if the
instruction does not itself assign to one of the cells. -/
theorem truthful_instr_iff {id : BlockId} {progress after : Progress} {lowered : Lowered}
    (made : job.instr id scope source progress = .ok (lowered, after))
    (notAlias : ∀ left right, source ≠ .aliased left right)
    (free : ∀ name, (scope.binding? name).isSome = true → ¬ IsReserved name) :
    lowered.steps.Truthful ↔
      ∀ cell, job.ties scope source cell → ¬ job.reassigns scope source cell := by
  have plain {script : Script} (plain : ∀ name cell, Script.aliasOf name cell ∉ script)
      (nothing : ∀ cell, ¬ job.reassigns scope source cell) : script.Truthful ↔
        ∀ cell, job.ties scope source cell → ¬ job.reassigns scope source cell :=
    iff_of_true (Script.truthful_of_plain plain) fun cell _ => nothing cell
  suffices yields : Lower.Yields (job.instr id scope source) fun lowered =>
      (lowered.steps.Truthful ↔
        ∀ cell, job.ties scope source cell → ¬ job.reassigns scope source cell) from
    yields _ _ _ made
  cases source with
  | assign place value => exact (yields_assignment free).bind fun answer same => .pure same
  | identity target from_ =>
      unfold instr
      dsimp only
      split
      · exact .pure (plain (by simp [Lowered.plain]) nofun)
      · refine Lower.Yields.skip fun param => Lower.Yields.check.bind fun answer stored => .pure ?_
        exact plain (stores_store stored).1 nofun
  | branch value =>
      refine yields_expr.bind fun computed named => .pure (iff_of_true (named.1.truthful ?_) nofun)
      exact fun cell _ content => named.2 cell content
  | goto => exact .pure (plain (by simp [Lowered.plain]) nofun)
  | ret value => exact yields_ret.bind fun steps truthful => .pure (iff_of_true truthful nofun)
  | call site =>
      exact yields_discarded.bind fun answer truthful => .pure (iff_of_true truthful nofun)
  | nop unreachable =>
      cases unreachable with
      | true =>
          exact .pure (plain (by simp [Lowered.plain, Script.aliasOf, Stmt.assertFalse]) nofun)
      | false => exact .pure (plain (by simp [Lowered.plain]) nofun)
  | throw value => exact .reject
  | aliased left right => exact absurd rfl (notAlias left right)

/-- A method over a list node in a cell, in the mutable model. -/
def nodeJob : Job where
  setting := ⟨⟨[⟨"A", none, [⟨"next", .ref "A"⟩]⟩], .empty, ⟨"A.main"⟩⟩,
    ⟨.ofList [("A", [⟨"A", "next", .ref "A"⟩])], .empty, .ofList [("A", 2)]⟩, .mutable⟩
  id := ⟨"A.main"⟩
  method := ⟨"A", "main", true, [], .void, [⟨"x", .ref "A"⟩, ⟨"y", .ref "A"⟩], ⟨0⟩, [], none⟩
  function := "A_main"
  plan := ⟨.empty, .empty⟩
  flags := .none

/-- The node and another local are cells. -/
def nodeScope : Scope := (Scope.empty.bind "x" .mutable).bind "y" .mutable

/-- Reads the next node into a local. -/
def readNext (target : String) : Instr :=
  .assign (.var target) (.fieldRead "x" ⟨"A", "next"⟩ (.singleton "A"))

/-- The same access is truthful where its target is another local. -/
theorem truthful_readNext_other : ∃ lowered after,
    nodeJob.instr ⟨0⟩ nodeScope (readNext "y") .start = .ok (lowered, after) ∧
      lowered.steps.Truthful := by
  have made : nodeJob.instr ⟨0⟩ nodeScope (readNext "y") .start = .ok (_, _) := rfl
  refine ⟨_, _, made, (truthful_instr_iff made nofun ?_).2 ?_⟩
  · intro name bound
    rw [nodeScope, Scope.binding?_bind, Scope.binding?_bind] at bound
    split at bound
    · subst name
      decide
    · split at bound
      · subst name
        decide
      · cases bound
  · rintro cell (⟨rfl, -, -⟩ | tied) ⟨same, -⟩
    · exact absurd same (by decide)
    · exact tied

/-- What reading the next node into the local of the node becomes. -/
def staleTie : Script := [
  Script.bindName "__base_ptr_0" (.contentOf "x"),
  .bind (.tuple [none, some "__field_0"]) (.var "__base_ptr_0"),
  Script.assign "x" (.contentOf "__field_0"),
  .stmt (.aliased (.var "__field_0") (.proj (.var "__base_ptr_0") 1)),
  .stmt (.aliased (.var "__base_ptr_0") (.contentOf "x"))]

/-- Going on to the next node ties the old node to the cell that holds the next one. -/
theorem not_truthful_readNext_self : ∃ lowered after,
    nodeJob.instr ⟨0⟩ nodeScope (readNext "x") .start = .ok (lowered, after) ∧
      lowered.steps = staleTie ∧ ¬ lowered.steps.Truthful := by
  refine ⟨.plain (staleTie, nodeScope), _, rfl, rfl, fun truthful => ?_⟩
  obtain ⟨before, after, same, unassigned⟩ := truthful (staleTie.take 4) [] "__base_ptr_0" "x" rfl
  cases before with
  | nil =>
      obtain ⟨-, rfl⟩ := List.cons.inj same
      exact unassigned _ (.tail _ (.head _))
  | cons first rest =>
      have later : Script.bindName "__base_ptr_0" (.contentOf "x") ∈ (staleTie.take 4).tail :=
        same ▸ by simp
      simp [staleTie, Script.bindName, Script.assign] at later

end Job

end GotoFree
