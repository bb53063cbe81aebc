import GotoFree.Proofs.BoundNames
import GotoFree.Proofs.FunctionNames

/-!
# The names in sight in a method

Steps lead from scope to scope: besides temporaries they bind locals that were not bound before
(`Scope.Binds`). A local may be named like a temporary, so what they bind is of two kinds.
-/

namespace GotoFree

open Target (Clear Parted Script Step Stmt)

namespace Lower

variable {α : Type}

/-- What a step yields is known whatever it draws. -/
theorem Draws.of_yields {step : Lower α} {post : α → Prop} (yields : Yields step post) :
    Draws step fun _ answer _ => post answer :=
  fun progress answer after made => yields progress answer after made

/-- What is told by the temporaries is told by the number of the instruction. -/
theorem Gives.drawn {program : Program} {later : Agenda} {number : Nat} {step : Lower α}
    {post : α → List Target.Function → Prop} {known : Nat → α → Prop}
    (gives : Gives (·.Within program later (some number)) step post)
    (draws : Draws step fun before answer _ => known before.unit answer) :
    Gives (·.Within program later (some number)) step fun answer made =>
      post answer made ∧ known number answer := by
  intro progress answer after made within
  obtain ⟨before, functions, helpers, found⟩ := gives progress answer after made within
  refine ⟨before, functions, helpers, found, ?_⟩
  have unit := before.unit number rfl
  exact unit ▸ draws progress answer after made

end Lower

namespace Target.Script

/-- A script that binds no name. -/
structure Bindless (script : Script) : Prop where
  flat : script.Flat
  bound : script.bound = []

namespace Bindless

variable {script other : Script}

theorem nil : Bindless [] := ⟨flat_nil, rfl⟩

/-- Scripts in a row bind nothing if neither does. -/
theorem append (first : script.Bindless) (second : other.Bindless) : (script ++ other).Bindless :=
  ⟨flat_append.2 ⟨first.flat, second.flat⟩, by rw [bound_append, first.bound, second.bound]; rfl⟩

theorem stmt {stmt : Stmt} (none : stmt.BindsNone) : Bindless [.stmt stmt] :=
  ⟨flat_stmt.2 ⟨none, flat_nil⟩, rfl⟩

/-- Statements bind nothing if none of them does. -/
theorem ofStmts {stmts : List Stmt} (none : ∀ stmt ∈ stmts, stmt.BindsNone) :
    (ofStmts stmts).Bindless :=
  ⟨flat_ofStmts.2 none, bound_ofStmts⟩

end Bindless

end Target.Script

/-! ## Scopes -/

namespace Scope

variable {scope middle after : Scope} {name : String} {binding : Binding} {steps more : Script}
  {minted others : String → Prop} {added addedMore : List String}

/-- A local is bound, or will be with its first value. -/
def Has (scope : Scope) (name : String) : Prop :=
  (scope.binding? name).isSome = true ∨ (scope.postponed? name).isSome = true

/-- A scope has a local that is bound, and those it had. -/
theorem has_bind : (scope.bind name binding).Has = fun other => other = name ∨ scope.Has other := by
  ext other
  rw [Has, Has, binding?_bind, postponed?_bind]
  by_cases same : name = other
  · simp [same]
  · simp [same, Ne.symm same]

/-- A scope has a local that is postponed, and those it had. -/
theorem has_postpone :
    (scope.postpone name binding).Has = fun other => other = name ∨ scope.Has other := by
  have bound {other : String} :
      (scope.postpone name binding).binding? other = scope.binding? other := rfl
  ext other
  rw [Has, Has, bound, postponed?_postpone]
  by_cases same : name = other
  · simp [same]
  · simp [same, Ne.symm same]

/-- Steps lead from a scope to another one. What they bind are minted names, and locals that were
not bound before, each of them once. Besides those that the scope has, locals may be added. -/
structure Binds (minted : String → Prop) (added : List String) (scope after : Scope)
    (steps : Script) : Prop where
  flat : steps.Flat
  names : Parted minted
    (fun name => scope.binding? name = none ∧ (after.binding? name).isSome = true) steps.bound
  keeps : ∀ name, (scope.binding? name).isSome = true → (after.binding? name).isSome = true
  has : ∀ name, after.Has name → scope.Has name ∨ name ∈ added

namespace Binds

/-- Steps that bind minted names only. -/
theorem of_clear (flat : steps.Flat) (clear : Clear minted steps.bound) :
    Binds minted [] scope scope steps :=
  ⟨flat, clear.parted, fun _ bound => bound, fun _ has => .inl has⟩

/-- Code that binds nothing leads from a scope to itself. -/
theorem of_bindless (none : steps.Bindless) : Binds minted [] scope scope steps :=
  .of_clear none.flat (none.bound ▸ .nil)

/-- More names may be counted as minted. -/
theorem imp (binds : Binds minted added scope after steps)
    (weaken : ∀ name, minted name → others name) : Binds others added scope after steps :=
  ⟨binds.flat, binds.names.imp weaken fun _ known => known, binds.keeps, binds.has⟩

/-- Steps in a row lead on, if they mint different names. -/
theorem append (first : Binds minted added scope middle steps)
    (second : Binds others addedMore middle after more)
    (apart : ∀ name, minted name → ¬ others name) :
    Binds (fun name => minted name ∨ others name) (added ++ addedMore) scope after
      (steps ++ more) where
  flat := Script.flat_append.2 ⟨first.flat, second.flat⟩
  names := by
    rw [Script.bound_append]
    have both := first.names.append second.names apart fun name here there => by
      simp [there.1] at here
    refine both.imp (fun _ either => either) fun name either => ?_
    obtain ⟨unbound, isBound⟩ | ⟨unbound, isBound⟩ := either
    · exact ⟨unbound, second.keeps name isBound⟩
    · refine ⟨?_, isBound⟩
      cases before : scope.binding? name with
      | none => rfl
      | some binding => simpa [unbound] using first.keeps name (by simp [before])
  keeps name bound := second.keeps name (first.keeps name bound)
  has name has := by
    rw [List.mem_append]
    obtain hasMiddle | isAdded := second.has name has
    · exact (first.has name hasMiddle).imp_right .inl
    · exact .inr (.inr isAdded)

/-- What follows without binding temporaries of its own. -/
theorem behind (first : Binds minted added scope middle steps)
    (second : Binds (fun _ => False) addedMore middle after more) :
    Binds minted (added ++ addedMore) scope after (steps ++ more) :=
  (first.append second fun _ _ none => none).imp
    fun _ either => either.resolve_right fun none => none

/-- What comes before without binding temporaries of its own. -/
theorem before (first : Binds (fun _ => False) added scope middle steps)
    (second : Binds minted addedMore middle after more) :
    Binds minted (added ++ addedMore) scope after (steps ++ more) :=
  (first.append second fun _ none => none.elim).imp
    fun _ either => either.resolve_left fun none => none

/-- A local is bound with its first value. -/
theorem introduce {value : Target.Expr} (unbound : scope.binding? name = none) :
    Binds minted [name] scope (scope.bind name binding) [binding.introduce name value] := by
  have bound : Script.bound [binding.introduce name value] = [name] := by
    cases binding <;> rfl
  have flat : Script.Flat [binding.introduce name value] := by
    cases binding <;> simp [Binding.introduce]
  refine ⟨flat, ?_, fun other isBound => ?_, fun other has => ?_⟩
  · rw [bound]
    refine Clear.partedOther ⟨List.nodup_singleton name, List.forall_mem_singleton.2 ⟨unbound, ?_⟩⟩
    simp [binding?_bind]
  · rw [binding?_bind]
    split
    · rfl
    · exact isBound
  · rw [has_bind] at has
    rw [List.mem_singleton]
    exact has.symm

/-- A local is left to its first value. -/
theorem postpone : Binds minted [name] scope (scope.postpone name binding) [] := by
  refine ⟨Script.flat_nil, Clear.nil.parted, fun _ bound => bound, fun other has => ?_⟩
  rw [has_postpone] at has
  rw [List.mem_singleton]
  exact has.symm

/-- Locals that the scope has are not added. -/
theorem known (binds : Binds minted added scope after steps)
    (has : ∀ name ∈ added, scope.Has name) : Binds minted [] scope after steps where
  flat := binds.flat
  names := binds.names
  keeps := binds.keeps
  has name hasAfter := .inl ((binds.has name hasAfter).elim (fun here => here) (has name))

end Binds

end Scope

open Scope (Binds)

namespace Job

variable {job : Job} {scope after : Scope} {source : Instr} {id : BlockId} {number : Nat}
  {later : Agenda} {name : String} {steps : Script}

/-! ## Instructions -/

/-- A store binds its local if it was not bound before. -/
theorem binds_store {value : Target.Expr} {minted : String → Prop}
    (stored : job.store scope name value = .ok (steps, after)) :
    Binds minted [] scope after steps := by
  unfold store at stored
  split at stored
  · cases stored
    exact .of_bindless (.stmt fun _ _ => .assign)
  · cases stored
  · next binding unbound postponed =>
    cases stored
    have has : scope.Has name := .inr (by simp [postponed])
    exact (Binds.introduce unbound).known (by simpa using has)
  · cases stored

/-- The temporaries for the place that is stored to have not been handed out before. -/
theorem draws_assign {value : Target.Expr} {place : Place} :
    Lower.Draws (job.assign scope source value place) fun before answer _ =>
      Binds (fun name => IsTemporary before.unit name ∧ ¬ before.Drawn name) [] scope
        answer.2.1 answer.1 ∧ ∀ stmt ∈ answer.2.2, stmt.BindsNone := by
  cases place with
  | var name =>
      exact .check_bind fun answer stored => .pure fun _ => ⟨binds_store stored, by simp⟩
  | field base field possibleTypes =>
      refine draws_storeField.bind fun answer => .pure ?_
      rintro after before ⟨adds, none⟩
      exact ⟨.of_clear adds.flat ⟨adds.distinct, adds.fresh⟩, none⟩
  | arrayElement base index =>
      refine .check_bind fun array _ => .check_bind fun position _ => .pure fun _ => ⟨?_, by simp⟩
      exact .of_bindless (.stmt fun _ _ => .arrayStore)

/-- The temporaries of a value have its number. -/
theorem binds_prepares {before next : Temporaries} (prepares : before.Prepares next steps) :
    Binds next.Drawn [] scope scope steps :=
  .of_clear prepares.flat ⟨prepares.distinct, prepares.drawn⟩

/-- A plain instruction binds temporaries of its own, and locals. -/
theorem draws_plainInstr :
    Lower.Draws (job.plainInstr scope source) fun before answer _ =>
      Binds (IsTemporary before.unit) [] scope answer.2 answer.1 := by
  -- What follows a value without temporaries of its own leaves those of the value.
  have valued {before next : Temporaries} {computed : Computed} {more : Script}
      (prepares : before.Prepares next computed.before)
      (none : ∀ stmt ∈ computed.after, stmt.BindsNone) (bindless : more.Bindless) :
      Binds (IsTemporary before.unit) [] scope scope
        (computed.before ++ more ++ Script.ofStmts computed.after) := by
    have temporaries : Binds (IsTemporary before.unit) [] scope scope computed.before :=
      (binds_prepares prepares).imp fun name drawn => prepares.unit ▸ drawn.isTemporary
    rw [List.append_assoc]
    exact temporaries.behind (.of_bindless (bindless.append (.ofStmts none)))
  cases source with
  | assign target value =>
      refine draws_expr.bind fun computed => draws_assign.bind fun answer => .pure ?_
      rintro after middle ⟨stores, noneAfter⟩ before ⟨prepares, none⟩
      have both := (binds_prepares prepares).append stores fun name drawn fresh => fresh.2 drawn
      have temporaries : Binds (IsTemporary before.unit) [] scope answer.2.1
          (computed.before ++ answer.1) := by
        refine both.imp fun name either => prepares.unit ▸ ?_
        exact either.elim (fun drawn => drawn.isTemporary) fun fresh => fresh.1
      refine temporaries.behind (.of_bindless (.ofStmts ?_))
      exact List.forall_mem_append.2 ⟨none, noneAfter⟩
  | call site =>
      refine draws_call.bind fun answer => ?_
      split
      · next computed =>
        refine .pure fun after before found => ?_
        obtain ⟨prepares, none⟩ := found computed rfl
        exact valued prepares none (.stmt fun _ _ => .expr)
      · exact .pure fun _ _ _ => .of_bindless .nil
  | nop unreachable =>
      cases unreachable with
      | true => exact .pure fun _ => .of_bindless (.stmt fun _ _ => .assert)
      | false => exact .pure fun _ => .of_bindless .nil
  | aliased left right =>
      exact .check_bind fun left _ => .check_bind fun right _ => .pure fun _ =>
        .of_bindless (.stmt fun _ _ => .aliased)
  | throw | identity | branch | goto | ret => exact .reject

/-! ## Leaving -/

/-- A coordinate is recorded without binding a name. -/
theorem bindless_record {coord : Coord} :
    Lower.Yields (job.record coord) Script.Bindless := by
  unfold record
  split
  · exact Lower.Yields.skip fun flag => .pure (.stmt fun _ _ => .assign)
  · exact .pure .nil

/-- A jump binds no name. -/
theorem bindless_jump {coord : Coord} : Lower.Yields (job.jump scope coord) Script.Bindless := by
  unfold jump
  refine bindless_record.bind fun recording none => ?_
  split
  · split
    · exact .pure (none.append (.stmt fun _ _ => .ret))
    · exact .reject
  · split
    · exact .pure (none.append (.stmt fun _ _ => .ret))
    · exact .pure none

/-- A return binds no name. -/
theorem bindless_ret {value : Option Operand} :
    Lower.Yields (job.ret scope id value) Script.Bindless := by
  have aliases : ∀ stmt ∈ job.returnAliases scope, stmt.BindsNone := by
    intro stmt member
    obtain ⟨param, -, found⟩ := List.mem_filterMap.1 member
    obtain ⟨target, -, found⟩ := Option.bind_eq_some_iff.1 found
    split at found
    · cases found
      exact fun _ _ => .aliased
    · cases found
  have whole {result : Target.Expr} : Lower.Yields (job.record ⟨id, .exit⟩ >>= fun recording =>
      pure (recording ++ Script.ofStmts (job.returnAliases scope) ++ [Script.ret result]))
      Script.Bindless :=
    bindless_record.bind fun recording none =>
      .pure ((none.append (.ofStmts aliases)).append (.stmt fun _ _ => .ret))
  cases value with
  | none => exact whole
  | some operand => exact Lower.Yields.check.bind fun result _ => whole

/-! ## Blocks -/

/-- The argument of a source is found without a temporary. -/
theorem drawsNone_nameOfSource {from_ : Source} :
    Lower.DrawsNone (job.nameOfSource from_ source) := by
  unfold nameOfSource
  split
  · split
    · exact .pure fun _ => rfl
    · exact .throw
  · exact .reject

/-- An instruction binds temporaries with its number, and a local that gets its first value. -/
theorem draws_instr :
    Lower.Draws (job.instr id scope source) fun before code _ =>
      Binds (IsTemporary before.unit) [] scope code.scope code.steps := by
  have plain : Lower.Draws (do return Lowered.plain (← job.plainInstr scope source))
      fun before code _ => Binds (IsTemporary before.unit) [] scope code.scope code.steps :=
    draws_plainInstr.bind fun answer => .pure fun _ _ binds => binds
  cases source with
  | branch condition =>
      refine draws_expr.bind fun computed => .pure ?_
      rintro after before ⟨prepares, none⟩
      have temporaries : Binds (IsTemporary before.unit) [] scope scope computed.before :=
        (binds_prepares prepares).imp fun name drawn => prepares.unit ▸ drawn.isTemporary
      exact temporaries.behind (.of_bindless (.ofStmts none))
  | goto => exact .pure fun _ => .of_bindless .nil
  | ret value =>
      exact (Lower.Draws.of_yields bindless_ret).bind fun steps => .pure fun _ _ none =>
        .of_bindless none
  | identity target from_ =>
      unfold instr
      dsimp only
      split
      · exact .pure fun _ => .of_bindless .nil
      · exact drawsNone_nameOfSource.skip fun param => .check_bind fun answer stored =>
          .pure fun _ => binds_store stored
  | assign | call | nop | throw | aliased => exact plain

/-- A name is that of a temporary of an instruction in a block, from an index on. -/
def MintedFrom (job : Job) (later : Agenda) (id : BlockId) (index : Nat) (name : String) : Prop :=
  ∃ position, index ≤ position ∧ ⟨job.id, id, position⟩ ∈ later.spots.order ∧
    IsTemporary (later.spots.order.idxOf ⟨job.id, id, position⟩) name

/-- Only dispatch functions are made. -/
def Dispatches (job : Job) (later : Agenda) (made : List Target.Function) : Prop :=
  ∀ function ∈ made, ∃ number, job.Dispatcher later number function

/-- Where at most the function that dispatches is made, all that is made dispatches. -/
theorem AtMost.dispatches {made : List Target.Function} (few : job.AtMost later number made) :
    job.Dispatches later made := by
  obtain rfl | ⟨function, rfl, isDispatcher⟩ := few
  · simp [Dispatches]
  · exact List.forall_mem_singleton.2 ⟨number, isDispatcher⟩

/-- An instruction binds temporaries of its own, and makes at most one function. -/
theorem gives_binds_instr :
    Lower.Gives (·.Within job.setting.program later (some number)) (job.instr id scope source)
      fun code made => job.AtMost later number made ∧
        Binds (IsTemporary number) [] scope code.scope code.steps :=
  @Lower.Gives.drawn _ _ _ number _ _
    (fun number code => Binds (IsTemporary number) [] scope code.scope code.steps)
    gives_instr_atMost draws_instr

/-- The instructions of a block bind temporaries of their own, and locals. -/
theorem gives_binds_instrs {index : Nat} {list : List Instr} :
    Lower.Gives (·.Within job.setting.program later none) (job.instrs id index scope list)
      fun body made => job.Dispatches later made ∧
        Binds (job.MintedFrom later id index) [] scope body.scope body.steps := by
  induction list generalizing index scope with
  | nil => exact .pure ⟨by simp [Dispatches], .of_bindless .nil⟩
  | cons first rest ih =>
      refine Lower.gives_enter_bind (fun number => gives_binds_instr) fun head =>
        ih.bind fun tail => .pure ?_
      rintro more ⟨dispatches, bindsRest⟩ made entered ⟨few, binds⟩
      rw [List.append_nil]
      refine ⟨List.forall_mem_append.2 ⟨few.dispatches, dispatches⟩, ?_⟩
      have both := binds.append bindsRest ?_
      · refine both.imp fun name either => ?_
        obtain isTemporary | ⟨position, behind, known, isTemporary⟩ := either
        · exact ⟨index, Nat.le_refl _, entered, isTemporary⟩
        · exact ⟨position, Nat.le_of_succ_le behind, known, isTemporary⟩
      · -- Different instructions have different numbers.
        rintro name isTemporary ⟨position, behind, known, other⟩
        have spots := (List.idxOf_inj entered).1 (isTemporary.unit_eq other)
        cases spots
        exact Nat.not_succ_le_self _ behind

/-- What a plan introduces at a block is bound, or left to its first value. -/
theorem binds_openBlock {defined : List String} {list : List (String × Binding)}
    {answer : Script × Scope} (distinct : (list.map Prod.fst).Nodup)
    (unbound : ∀ entry ∈ list, scope.binding? entry.1 = none)
    (opens : job.openBlock id defined scope list = .ok answer) :
    Binds (fun _ => False) (list.map Prod.fst) scope answer.2 answer.1 := by
  induction list generalizing scope answer with
  | nil =>
      cases opens
      exact .of_bindless .nil
  | cons first rest ih =>
      obtain ⟨name, binding⟩ := first
      obtain ⟨once, distinctRest⟩ := List.nodup_cons.1 distinct
      obtain ⟨unboundHere, unboundRest⟩ := List.forall_mem_cons.1 unbound
      unfold openBlock at opens
      split at opens
      · have unboundLater :
            ∀ entry ∈ rest, (scope.postpone name binding).binding? entry.1 = none := unboundRest
        have others := ih distinctRest unboundLater opens
        exact Binds.postpone.behind others
      · dsimp only at opens
        split at opens
        · obtain ⟨type, -, opens⟩ := bind_eq_ok_iff.1 opens
          obtain ⟨inner, makes, opens⟩ := bind_eq_ok_iff.1 opens
          cases opens
          have others := ih distinctRest (fun entry member => ?_) makes
          · exact (Binds.introduce unboundHere).behind others
          · rw [Scope.binding?_bind, if_neg]
            · exact unboundRest entry member
            · rintro rfl
              exact once (List.mem_map.2 ⟨entry, member, rfl⟩)
        · cases opens

/-- The locals of the entry are bound, each of them once. -/
theorem binds_introduceEntry {list : List (String × Binding)} {answer : Script × Scope}
    (distinct : (list.map Prod.fst).Nodup)
    (unbound : ∀ entry ∈ list, scope.binding? entry.1 = none)
    (introduces : job.introduceEntry scope list = .ok answer) :
    Binds (fun _ => False) (list.map Prod.fst) scope answer.2 answer.1 := by
  induction list generalizing scope answer with
  | nil =>
      cases introduces
      exact .of_bindless .nil
  | cons first rest ih =>
      obtain ⟨name, binding⟩ := first
      obtain ⟨once, distinctRest⟩ := List.nodup_cons.1 distinct
      obtain ⟨unboundHere, unboundRest⟩ := List.forall_mem_cons.1 unbound
      have bound (binding : Binding) :
          ∀ entry ∈ rest, (scope.bind name binding).binding? entry.1 = none := by
        intro entry member
        rw [Scope.binding?_bind, if_neg]
        · exact unboundRest entry member
        · rintro rfl
          exact once (List.mem_map.2 ⟨entry, member, rfl⟩)
      unfold introduceEntry at introduces
      split at introduces
      · obtain ⟨inner, makes, introduces⟩ := bind_eq_ok_iff.1 introduces
        cases introduces
        exact (Binds.introduce unboundHere).behind (ih distinctRest (bound _) makes)
      · obtain ⟨type, -, introduces⟩ := bind_eq_ok_iff.1 introduces
        obtain ⟨inner, makes, introduces⟩ := bind_eq_ok_iff.1 introduces
        cases introduces
        exact (Binds.introduce unboundHere).behind (ih distinctRest (bound .mutable) makes)
      · have unboundLater :
            ∀ entry ∈ rest, (scope.postpone name .const).binding? entry.1 = none := unboundRest
        exact Binds.postpone.behind (ih distinctRest unboundLater introduces)

end Job

end GotoFree
