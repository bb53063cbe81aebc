import GotoFree.Proofs.CallFree
import GotoFree.Proofs.Standing

/-!
# Aliases of arguments

An object in a cell is passed to a call under a name of its own, which is tied to the cell again.
For a call that is a statement or the value of an assignment this happens right behind the step that
makes the call; but where a branch decides on the value of a call, the names are tied in front of
the conditional that makes it (`Program.lower_ties`), and not again behind it
(`Program.not_retied_deciding`).
-/

namespace GotoFree

open Target (Script Step Stmt)
open Target.Stmt (IsRest)

/-- The operands that a call passes: the receiver of an instance call comes first. -/
def Call.operands (site : Call) : List Operand :=
  if site.kind = .static then site.args else site.receiver.toList.map .var ++ site.args

/-- A call that is dropped: that of a constructor without a body. -/
def Call.IsDropped (site : Call) (program : Program) : Prop :=
  site.kind = .special ∧ site.callee.name = Program.constructorName ∧
    program.implementations site = []

/-- A local is a cell that holds a reference. -/
def Method.HasObjectCell (method : Method) (plan : BindingPlan) (name : String) : Prop :=
  (name, .mutable) ∈ plan.locals ∧
    ∃ type, method.localType? name = some type ∧ type.isReference = true

/-- The name under which the call with a number passes the argument at a position. -/
def argumentName (unit position : Nat) : String :=
  "__call" ++ toString unit ++ "_" ++ toString position

/-- The statement that ties an argument to a cell again. -/
def tieOf (unit position : Nat) (cell : String) : Stmt :=
  .aliased (.var (argumentName unit position)) (.contentOf cell)

/-- In a block a call is made, and some statements are run with it: right behind the step that makes
the call, or else in front of the conditional whose condition makes it. -/
inductive Target.Stmt.RunsWith (call : String × Nat) (closing block : List Stmt) : Bool → Prop
  | behind {opening back : Script} {holder : Step} (before : opening.calls = [])
      (calls : holder.calls = [call])
      (rest : IsRest (opening ++ holder :: (Script.ofStmts closing ++ back)).stmts block) :
      RunsWith call closing block false
  | inFront {opening back : Script} {condition : Target.Expr} {thenBranch elseBranch : List Stmt}
      (before : opening.calls = []) (calls : condition.calls = [call])
      (rest : IsRest (opening ++ (Script.ofStmts closing ++
        .stmt (.cond condition thenBranch elseBranch) :: back)).stmts block) :
      RunsWith call closing block true

open Target.Stmt (RunsWith)

/-- A write makes the calls of the value in its last step. -/
theorem ObjectModel.exists_holder {model : ObjectModel} {handle : Handle} {owner : Owner}
    {value : Target.Expr} {steps : Script} (ofBase : handle.base.calls = [])
    (written : model.write handle owner value = .ok steps) :
    ∃ (opening : Script) (holder : Step), steps = opening ++ [holder] ∧ opening.calls = [] ∧
      holder.calls = value.calls := by
  cases model with
  | mutable =>
      cases written
      exact ⟨[_], _, rfl, by simp [ofBase], Script.calls_assign⟩
  | functional =>
      unfold write at written
      dsimp only at written
      split at written
      · cases written
      · split at written
        · cases written
        · next inside =>
          cases written
          refine ⟨[_], _, rfl, by simp [ofBase], ?_⟩
          have fits : handle.slot < ((slotNames handle).map Target.Expr.var).length := by
            simpa [slotNames] using inside
          have others {exprs : List Target.Expr}
              (names : exprs ⊆ (slotNames handle).map Target.Expr.var) :
              exprs.flatMap Target.Expr.calls = [] := by
            refine List.flatMap_eq_nil_iff.2 fun expr member => ?_
            obtain ⟨name, -, rfl⟩ := List.mem_map.1 (names member)
            exact Target.Expr.calls_var
          rw [Script.calls_assign, Target.Expr.calls, Target.Expr.callsOfAll_eq,
            List.set_eq_take_append_cons_drop, if_pos fits, List.flatMap_append, List.flatMap_cons,
            others (List.take_subset _ _), others (List.drop_subset _ _), List.nil_append,
            List.append_nil]

namespace Job

variable {job : Job} {scope : Scope} {source : Instr} {later : Agenda} {number : Nat}
  {site : Call} {call : String × Nat} {computed : Computed} {made : List Target.Function}

/-! ## Calls -/

/-- A value is that of a call, and its arguments that are references in cells are tied to the cells
again after it. -/
structure TiesArguments (job : Job) (later : Agenda) (source : Instr) (site : Call)
    (call : String × Nat) (computed : Computed) (made : List Target.Function) : Prop where
  before : computed.before.calls = []
  value : computed.value.calls = [call]
  count : call.2 = site.operands.length
  serves : ∃ number, job.Serves later number site source call.1 made
  aliases : ∀ stmt ∈ computed.after, ∃ left right, stmt = .aliased left right
  ties : ∃ unit, ∀ position name, site.operands[position]? = some (.var name) →
    job.method.HasObjectCell job.plan name → tieOf unit position name ∈ computed.after

/-- The operands of a call are its receiver, if it has one, and its arguments. -/
theorem operands_of_operandsOf {operands : List Operand}
    (made : job.operandsOf site source = .ok operands) : operands = site.operands := by
  unfold Call.operands
  by_cases isStatic : site.kind = .static
  · rw [operandsOf, isStatic] at made
    cases made
    rw [if_pos isStatic]
  · rw [if_neg isStatic]
    unfold operandsOf at made
    split at made
    · contradiction
    · next receiver isReceiver _ =>
      cases made
      rw [isReceiver]
      rfl
    · cases made

/-- A reference in a cell is passed under a name. -/
theorem isObjectCell_of_pass (planned : job.Planned scope)
    (once : (job.plan.locals.map Prod.fst).Nodup) {name : String} {temporaries : Temporaries}
    {position : Nat} {arg : Computed} (has : job.method.HasObjectCell job.plan name)
    (made : job.pass scope temporaries (.var name) position = .ok arg) :
    job.isObjectCell scope (.var name) = .ok true := by
  obtain ⟨isCell, type, isType, isReference⟩ := has
  rcases pass_cases made with ⟨_, -, found, -⟩ | ⟨-, value, isValue, -⟩
  · exact found
  · obtain ⟨binding, isBound, -⟩ := bind_eq_ok_iff.1 isValue
    have bound := bindingOf_eq_ok_iff.1 isBound
    have same := List.inj_on_of_nodup_map once (planned.bound name binding bound) isCell rfl
    cases same
    simp [isObjectCell, bound, localType, isType, isReference, ok_bind]

/-- A call ties each of its arguments that is a mutable object back to the cell it was read from. -/
theorem gives_ties_call (planned : job.Planned scope)
    (once : (job.plan.locals.map Prod.fst).Nodup) :
    Lower.Gives (·.Within job.setting.program later (some number)) (job.call scope site source)
      fun answer made => ∀ computed ∈ answer,
        ∃ call, job.TiesArguments later source site call computed made := by
  refine gives_call.imp fun answer made found => ?_
  obtain ⟨rfl, -⟩ | ⟨function, temporaries, operands, args, isOperands, passed, rfl, serves⟩ :=
    found
  · exact nofun
  rintro _ ⟨⟩
  obtain rfl := operands_of_operandsOf isOperands
  have none : ∀ arg ∈ args, arg.calls = [] := by
    intro arg member
    obtain ⟨entry, -, isArg⟩ := exists_of_mem_right passed member
    exact calls_pass isArg
  have whole := @Computed.calls_call function args none
  -- The arguments and the steps before them call nothing, since the call is all there is.
  have nothing : Script.calls (args.flatMap Computed.before) = [] ∧
      Target.Expr.callsOfAll (args.map Computed.value) = [] := by
    have lengths := congrArg List.length whole
    simp only [Computed.calls, Target.Expr.calls, List.length_append, List.length_cons,
      List.length_nil] at lengths
    exact ⟨List.length_eq_zero_iff.1 (by omega), List.length_eq_zero_iff.1 (by omega)⟩
  have value : (Target.Expr.call function (args.map Computed.value)).calls =
      [(function, args.length)] := by
    rw [Target.Expr.calls, nothing.2, List.length_map]
  have count : args.length = site.operands.length := by
    rw [← passed.length_eq, List.length_zipIdx]
  refine ⟨(function, args.length), ⟨?_, value, count, ⟨number, serves⟩, ?_, temporaries.unit, ?_⟩⟩
  · exact nothing.1
  · exact (ties_args passed).1.aliases
  · intro position name isOperand has
    have among : (Operand.var name, position) ∈ site.operands.zipIdx :=
      List.mk_mem_zipIdx_iff_getElem?.2 isOperand
    obtain ⟨arg, isArg, pass⟩ := exists_of_mem_left passed among
    have isCell := isObjectCell_of_pass planned once has pass
    refine List.mem_flatMap.2 ⟨arg, isArg, ?_⟩
    rcases pass_cases pass with ⟨_, ⟨⟩, -, rfl⟩ | ⟨notCell, -⟩
    · exact List.mem_singleton_self _
    · cases notCell.symm.trans isCell

/-- Where there is no value, the call is dropped. -/
theorem yields_dropped_call :
    Lower.Yields (job.call scope site source) fun answer =>
      answer = none → site.IsDropped job.setting.program := by
  have dropped : Lower.Yields (job.calleeOf site source) fun callee =>
      callee = none → site.IsDropped job.setting.program := by
    unfold calleeOf
    dsimp only
    split
    · split
      · exact Lower.Yields.skip fun name => .pure fun none => by cases none
      · exact .reject
    · next isSpecial =>
      split
      · exact Lower.Yields.skip fun name => .pure fun none => by cases none
      · next unknown =>
        split
        · next isConstructor =>
          refine Lower.Yields.skip fun _ => .pure fun _ => ⟨isSpecial, isConstructor, ?_⟩
          simp [Program.implementations, isSpecial, unknown]
        · exact .reject
    · refine Lower.Yields.skip fun table => ?_
      split
      · exact Lower.Yields.skip fun name => .pure fun none => by cases none
      · exact Lower.Yields.skip fun name => .pure fun none => by cases none
  unfold Job.call
  refine dropped.bind fun callee isDropped => ?_
  split
  · exact .pure fun _ => isDropped rfl
  · exact Lower.Yields.skip fun operands => Lower.Yields.skip fun progress =>
      Lower.Yields.skip fun args => .pure fun none => by cases none

/-- A call in an expression ties its arguments. -/
theorem gives_ties_expr (planned : job.Planned scope)
    (once : (job.plan.locals.map Prod.fst).Nodup) :
    Lower.Gives (·.Within job.setting.program later (some number))
      (job.expr scope source (.call site))
      fun computed made => ∃ call, job.TiesArguments later source site call computed made := by
  refine (gives_ties_call planned once).bind fun answer => ?_
  split
  · next computed =>
    refine .pure fun made ties => ?_
    rw [List.append_nil]
    exact ties computed rfl
  · exact .reject

/-! ## Stores -/

/-- Storing a value makes the calls of the value in its last step. -/
theorem yields_holder_assign {value : Target.Expr} {place : Place} :
    Lower.Yields (job.assign scope source value place) fun answer =>
      (∃ (opening : Script) (holder : Step), answer.1 = opening ++ [holder] ∧ opening.calls = [] ∧
        holder.calls = value.calls) ∧
      ∀ stmt ∈ answer.2.2, ∃ left right, stmt = .aliased left right := by
  cases place with
  | var name =>
      refine Lower.Yields.check.bind fun answer stored => .pure ⟨?_, nofun⟩
      have calls := (calls_store stored).2
      unfold Job.store at stored
      split at stored
      · cases stored
        exact ⟨[], _, rfl, rfl, Script.calls_assign⟩
      · cases stored
      · cases stored
        exact ⟨[], _, rfl, rfl, Binding.calls_introduce⟩
      · cases stored
  | field base field possibleTypes =>
      have stores : Lower.Yields (job.storeField scope base field possibleTypes value source)
          fun answer => (∃ (opening : Script) (holder : Step), answer.1 = opening ++ [holder] ∧
            opening.calls = [] ∧ holder.calls = value.calls) ∧
            ∀ stmt ∈ answer.2, ∃ left right, stmt = .aliased left right := by
        refine yields_openField.bind fun access opened => ?_
        obtain ⟨before, ofBase⟩ := opened.calls_eq_nil
        split
        · next steps written =>
          obtain ⟨opening, holder, rfl, none, calls⟩ := ObjectModel.exists_holder ofBase written
          refine .pure ⟨⟨access.before ++ opening, holder, ?_, ?_, calls⟩, ?_⟩
          · rw [List.append_assoc]
          · rw [Script.calls_append, before, none, List.nil_append]
          · exact (opened.ties fun _ _ => List.not_mem_nil).aliases
        · exact nofun
        · exact .reject
      exact stores.bind fun answer stored => .pure stored
  | arrayElement base index =>
      refine Lower.Yields.check.bind fun array isArray =>
        Lower.Yields.check.bind fun position isPosition => .pure ⟨⟨[], _, rfl, rfl, ?_⟩, nofun⟩
      simp [Stmt.calls, calls_valueOf isArray, calls_operand isPosition]

/-! ## Instructions -/

/-- Wherever the code of an instruction stands, its call is made, and some statements are run with
it. -/
def RunsWith (source : Instr) (call : String × Nat) (code : Lowered) (closing : List Stmt) : Prop :=
  ∀ (back : Script) (block : List Stmt), IsRest (code.steps ++ back).stmts block →
    (∀ condition, code.condition = some condition → ∃ thenBranch elseBranch rest,
      back = .stmt (.cond condition thenBranch elseBranch) :: rest) →
    Stmt.RunsWith call closing block source.isBranch

/-- An instruction makes a call, and ties the arguments that are references in cells to the cells
again. -/
def Reties (job : Job) (later : Agenda) (source : Instr) (site : Call) (code : Lowered)
    (made : List Target.Function) : Prop :=
  ∃ call closing, RunsWith source call code closing ∧ call.2 = site.operands.length ∧
    (∃ number, job.Serves later number site source call.1 made) ∧
    (∀ stmt ∈ closing, ∃ left right, stmt = .aliased left right) ∧
    ∃ unit, ∀ position name, site.operands[position]? = some (.var name) →
      job.method.HasObjectCell job.plan name → tieOf unit position name ∈ closing

/-- Behind a call nothing but ties follows, and all its arguments are tied. -/
theorem TiesArguments.reties {code : Lowered} {closing : List Stmt}
    (ties : job.TiesArguments later source site call computed made)
    (aliases : ∀ stmt ∈ closing, ∃ left right, stmt = .aliased left right)
    (runs : RunsWith source call code (computed.after ++ closing)) :
    job.Reties later source site code made := by
  obtain ⟨unit, tied⟩ := ties.ties
  refine ⟨call, computed.after ++ closing, runs, ties.count, ties.serves, fun stmt member => ?_,
    unit, fun position name isOperand has =>
      List.mem_append_left _ (tied position name isOperand has)⟩
  exact (List.mem_append.1 member).elim (ties.aliases stmt) (aliases stmt)

/-- An assignment of a call ties the arguments of the call again. -/
theorem gives_reties_assign (planned : job.Planned scope)
    (once : (job.plan.locals.map Prod.fst).Nodup) {target : Place} :
    Lower.Gives (·.Within job.setting.program later (some number))
      (job.plainInstr scope (.assign target (.call site)))
      fun answer made =>
        job.Reties later (.assign target (.call site)) site (.plain answer) made := by
  refine (gives_ties_expr planned once).bind fun computed =>
    Lower.Answers.bind (quiet_assign.yields yields_holder_assign) fun answer => .pure ?_
  rintro ⟨⟨opening, holder, same, before, calls⟩, aliases⟩ made ⟨call, ties⟩
  rw [List.append_nil]
  refine ties.reties aliases fun back block isRest _ => ?_
  refine @Stmt.RunsWith.behind _ _ _ (computed.before ++ opening) back holder ?_ ?_ ?_
  · rw [Script.calls_append, ties.before, before, List.nil_append]
  · rw [calls, ties.value]
  · simpa [Lowered.plain, same] using isRest

/-- A call as a statement ties its arguments again. -/
theorem gives_reties_call (planned : job.Planned scope)
    (once : (job.plan.locals.map Prod.fst).Nodup) :
    Lower.Gives (·.Within job.setting.program later (some number))
      (job.plainInstr scope (.call site)) fun answer made =>
        site.IsDropped job.setting.program ∨
          job.Reties later (.call site) site (.plain answer) made := by
  refine ((gives_ties_call planned once).also yields_dropped_call).bind fun answer => ?_
  split
  · next computed =>
    refine .pure ?_
    rintro made ⟨all, -⟩
    obtain ⟨call, ties⟩ := all computed rfl
    rw [List.append_nil]
    refine .inr (ties.reties (List.forall_mem_nil _) fun back block isRest _ => ?_)
    refine @Stmt.RunsWith.behind _ _ _ computed.before back (.stmt (.expr computed.value))
      ties.before ?_ ?_
    · rw [Step.calls_stmt, Stmt.calls, ties.value]
    · simpa [Lowered.plain] using isRest
  · exact .pure fun made dropped => .inl (dropped.2 rfl)

/-- An instruction that makes a call ties the arguments of the call again. -/
theorem gives_reties_instr (planned : job.Planned scope)
    (once : (job.plan.locals.map Prod.fst).Nodup) {id : BlockId}
    (isSite : source.site? = some site) :
    Lower.Gives (·.Within job.setting.program later (some number)) (job.instr id scope source)
      fun code made => site.IsDropped job.setting.program ∨
        job.Reties later source site code made := by
  have isCall {value : Expr} (isSite : value.site? = some site) : value = .call site := by
    cases value <;> cases isSite
    rfl
  cases source with
  | assign target value =>
      obtain rfl := isCall isSite
      refine (gives_reties_assign planned once).bind fun answer => .pure fun made reties => ?_
      rw [List.append_nil]
      exact .inr reties
  | branch condition =>
      obtain rfl := isCall isSite
      refine (gives_ties_expr planned once).bind fun computed => .pure ?_
      rintro made ⟨call, ties⟩
      rw [List.append_nil]
      refine .inr (ties.reties (List.forall_mem_nil _) fun back block isRest follows => ?_)
      obtain ⟨thenBranch, elseBranch, rest, rfl⟩ := follows _ rfl
      rw [List.append_nil]
      exact .inFront ties.before ties.value (by simpa using isRest)
  | call site =>
      cases isSite
      refine (gives_reties_call planned once).bind fun answer => .pure fun made reties => ?_
      rw [List.append_nil]
      exact reties
  | identity | goto | ret | nop | throw | aliased => cases isSite

end Job

/-! ## Programs -/

/-- Every call in a block that control may come to, of a method that is reached, is made unless it
is that of a constructor without a body; and with it the names of the arguments that are references
in cells are tied to the cells again. This happens right behind the step that makes the call if the
call is a statement or the value of an assignment, and in front of the conditional that makes it if
the call is the condition of a branch. -/
theorem Program.lower_ties {program : Program} {model : ObjectModel} {entry : Option MethodId}
    {lowered : LoweredProgram} (lowers : program.lower model entry = .ok lowered) :
    ∃ prepared layout last,
      ({ program with entry := entry.getD program.entry } : Program).withoutArguments =
        .ok prepared ∧
      Lower.program ⟨prepared, layout, model⟩ .start = .ok (lowered, last) ∧
      ∀ id, prepared.Reached id → ∃ method plan, prepared.method? id = some method ∧
        method.checkedPlan = .ok plan ∧
        ∀ block listed, method.Reaches block → method.block? block = some listed →
          ∀ source ∈ listed.instrs, ∀ site, source.site? = some site →
            site.IsDropped prepared ∨ ∃ call closing unit,
              (∃ function ∈ lowered.program.functions,
                RunsWith call closing function.body source.isBranch) ∧
              call.2 = site.operands.length ∧
              ((∃ callee ∈ prepared.implementations site,
                  last.agenda.nameOf? callee = some call.1) ∨
                site.kind = .virtual ∧
                  ∃ dispatcher ∈ lowered.program.functions, dispatcher.name = call.1) ∧
              (∀ stmt ∈ closing, ∃ left right, stmt = .aliased left right) ∧
              ∀ position name, site.operands[position]? = some (.var name) →
                method.HasObjectCell plan name → tieOf unit position name ∈ closing := by
  obtain ⟨prepared, layout, last, chosen, -, ran⟩ := lower_eq_ok_iff.1 lowers
  refine ⟨prepared, layout, last, chosen, ran, fun id isReached => ?_⟩
  obtain ⟨job, agenda, ofSetting, rfl, isMethod, isPlan, keeps, stands⟩ :=
    Lower.stands_program ran isReached
  refine ⟨job.method, job.plan, isMethod, isPlan, ?_⟩
  obtain ⟨-, once, -⟩ := Method.checkedPlan_eq_ok_iff.1 isPlan
  rw [← BindingPlan.map_fst_locals] at once
  intro block listed reaches isBlock source member site isSite
  obtain ⟨index, isSource⟩ := List.mem_iff_getElem?.1 member
  obtain ⟨scope, code, made, codeOf, isMade, function, isFunction, back, isRest, branches⟩ :=
    stands block listed reaches isBlock index source isSource
  have reties := codeOf.of_gives (Job.gives_reties_instr codeOf.planned once isSite)
  rw [ofSetting] at reties
  refine reties.imp_right ?_
  rintro ⟨call, closing, runs, count, ⟨number, serves⟩, aliases, unit, ties⟩
  refine ⟨call, closing, unit, ⟨function, isFunction, runs back _ isRest branches⟩, count, ?_,
    aliases, ties⟩
  rw [Job.Serves, ofSetting] at serves
  obtain ⟨-, callee, known, named, -⟩ | ⟨dispatcher, table, isVirtual, rfl, isName, -⟩ := serves
  · exact .inl ⟨callee, known, keeps.names callee _ named⟩
  · exact .inr ⟨isVirtual, dispatcher, isMade (List.mem_singleton_self _), isName⟩

/-- A program that passes an object in a cell to a call in an instruction. -/
def passingProgram (use : Call → Instr) : Program :=
  let passing := use ⟨.static, ⟨"A", "f", 1⟩, none, [.var "x"], .empty⟩
  { classes := [⟨"A", none, []⟩]
    methods := .ofList [
      (.plain "A" "main", {
        className := "A"
        name := "main"
        isStatic := true
        params := []
        returnType := .void
        locals := [⟨"x", .ref "A"⟩]
        entry := ⟨0⟩
        blocks := [
          ⟨⟨0⟩, [.assign (.var "x") (.new "A"), passing], List.replicate passing.fanOut ⟨1⟩⟩,
          ⟨⟨1⟩, [.ret none], []⟩]
        plan := none }),
      (.plain "A" "f", {
        className := "A"
        name := "f"
        isStatic := true
        params := [.ref "A"]
        returnType := .bool
        locals := []
        entry := ⟨0⟩
        blocks := [⟨⟨0⟩, [.ret (some (.bool true))], []⟩]
        plan := none })]
    entry := .plain "A" "main" }

/-- A method that passes an object ties it again behind the call. -/
theorem Program.lower_ties_calling : ∃ lowered,
    (passingProgram .call).lower .mutable none = .ok lowered ∧ ∃ call closing unit,
      (∃ function ∈ lowered.program.functions, RunsWith call closing function.body false) ∧
      tieOf unit 0 "x" ∈ closing := by
  have seen : ((passingProgram .call).lower .mutable none).toOption.map
      (fun lowered => lowered.program.calls) = some [("A_f", 1), ("A_main", 0)] := by
    decide +kernel
  obtain ⟨lowered, lowers, -⟩ := exists_lowered seen
  refine ⟨lowered, lowers, ?_⟩
  obtain ⟨prepared, layout, last, chosen, -, ties⟩ := lower_ties lowers
  cases chosen
  obtain ⟨method, plan, isMethod, isPlan, ties⟩ := ties _ .refl
  cases isMethod
  cases isPlan
  obtain dropped | ⟨call, closing, unit, runs, -, -, -, ties⟩ := ties ⟨0⟩ _ .refl rfl
    (.call ⟨.static, ⟨"A", "f", 1⟩, none, [.var "x"], .empty⟩) (by decide) _ rfl
  · cases dropped.1
  · exact ⟨call, closing, unit, runs, ties 0 "x" rfl ⟨by decide, .ref "A", rfl, rfl⟩⟩

namespace Target.Stmt

/-- Whether the statement ties a name to the content of a cell. -/
def ties (cell : String) : Stmt → Bool
  | .aliased (.var _) (.deref (.var other)) => other = cell
  | _ => false

mutual

/-- Whether a name is tied to the content of a cell behind a call in the statement. -/
def reties (cell : String) : Stmt → Bool
  | .bind _ value body => (!value.calls.isEmpty && body.any (ties cell)) || retiesIn cell body
  | .cond _ thenBranch elseBranch => retiesIn cell thenBranch || retiesIn cell elseBranch
  | .assign .. | .arrayStore .. | .ret _ | .assert _ | .aliased .. | .expr _ => false

/-- Whether a name is tied to the content of a cell behind a call in the block. -/
def retiesIn (cell : String) : List Stmt → Bool
  | [] => false
  | stmt :: rest =>
      (!stmt.calls.isEmpty && rest.any (ties cell)) || reties cell stmt || retiesIn cell rest

end

/-- What ties a cell again at the end of a block does so in the block. -/
theorem IsRest.retiesIn {cell : String} {rest block : List Stmt} (isRest : IsRest rest block)
    (reties : retiesIn cell rest = true) : retiesIn cell block = true := by
  induction isRest with
  | whole => exact reties
  | behind _ ih => simp [Stmt.retiesIn, ih]
  | bound _ ih | taken _ ih | notTaken _ ih => simp [Stmt.retiesIn, Stmt.reties, ih]

/-- Code that closes with a tie ties the cell again. -/
theorem RunsWith.retiesIn {call : String × Nat} {closing block : List Stmt} {name cell : String}
    (runs : RunsWith call closing block false)
    (tied : .aliased (.var name) (.contentOf cell) ∈ closing) : retiesIn cell block = true := by
  cases runs with
  | @behind opening back holder before calls isRest =>
    refine (Script.isRest_append.trans isRest).retiesIn ?_
    have anyTies : (Script.ofStmts closing ++ back).stmts.any (ties cell) = true := by
      rw [Script.stmts_ofStmts_append, List.any_append, Bool.or_eq_true]
      exact .inl (List.any_eq_true.2 ⟨_, tied, by simp [ties, Expr.contentOf]⟩)
    cases holder with
    | stmt stmt =>
        rw [Step.calls_stmt] at calls
        simp [Script.stmts, Stmt.retiesIn, calls, anyTies]
    | bind pattern value =>
        rw [Step.calls_bind] at calls
        simp [Script.stmts, Stmt.retiesIn, Stmt.reties, calls, anyTies]

end Target.Stmt

/-- The content of a cell that is passed to the call in a condition is not tied again behind it. -/
theorem Program.not_retied_deciding : ∃ lowered,
    (passingProgram fun site => .branch (.call site)).lower .mutable none = .ok lowered ∧
      ("A_f", 1) ∈ lowered.program.calls ∧
      ∀ function ∈ lowered.program.functions, ∀ call closing name,
        RunsWith call closing function.body false →
          .aliased (.var name) (.contentOf "x") ∉ closing := by
  have seen : ((passingProgram fun site => .branch (.call site)).lower .mutable none).toOption.map
      (fun lowered => (lowered.program.calls,
        lowered.program.functions.all fun function => !Stmt.retiesIn "x" function.body)) =
        some ([("A_f", 1), ("A_main", 0)], true) := by
    decide +kernel
  obtain ⟨lowered, lowers, same⟩ := exists_lowered seen
  obtain ⟨calls, all⟩ := Prod.mk.inj same
  refine ⟨lowered, lowers, calls ▸ by decide, ?_⟩
  intro function member call closing name runs tied
  have not := List.all_eq_true.1 all function member
  rw [runs.retiesIn tied] at not
  cases not

end GotoFree
