import GotoFree.Proofs.CallSites
import GotoFree.Proofs.FunctionNames

/-!
# Which methods are lowered

While a method is lowered, the methods that it refers to join those that have been asked for, and no
others do (`Lower.asks_method`); the calls stand deep inside the tree, so this is a judgement on the
steps of the tree (`Job.tallies_asks`). So the queue runs through the methods that are reached from
the entry (`Lower.program_reached`), and it runs empty after as many steps as there are methods
(`Lower.queued_succ`).
-/

namespace GotoFree

open Relation

/-- Calls lead from the entry to a method. -/
def Program.Reached (program : Program) (id : MethodId) : Prop :=
  ReflTransGen program.Refers program.entry id

/-! ## What a step asks for -/

/-- A request adds its method to those that have been seen. -/
theorem Agenda.mem_seen_request {agenda : Agenda} {id other : MethodId} {className name : String} :
    other ∈ (agenda.request id className name).2.seen ↔ other ∈ agenda.seen ∨ other = id := by
  unfold request
  dsimp only
  split
  · next seen => exact (or_iff_left_of_imp fun same => same ▸ seen).symm
  · rw [SortedSet.mem_insert, or_comm]

namespace Lower

variable {α β : Type}

/-- If a step succeeds, some methods have been asked for in it, and no others. -/
def Asks (step : Lower α) (asked : MethodId → Prop) : Prop :=
  ∀ progress answer after, step progress = .ok (answer, after) →
    ∀ id, id ∈ after.agenda.seen ↔ id ∈ progress.agenda.seen ∨ asked id

namespace Asks

variable {asked more : MethodId → Prop}

theorem congr {step : Lower α} (asks : Asks step asked) (same : ∀ id, asked id ↔ more id) :
    Asks step more := by
  intro progress answer after made id
  rw [asks progress answer after made id, same]

theorem pure {value : α} : Asks (pure value : Lower α) fun _ => False := by
  rintro progress answer after ⟨⟩ id
  simp

/-- Two steps in a row ask for what either of them does. -/
theorem bind {first : Lower α} {rest : α → Lower β} (one : Asks first asked)
    (other : ∀ value, Asks (rest value) more) :
    Asks (first >>= rest) fun id => asked id ∨ more id := by
  intro progress answer after made id
  obtain ⟨value, between, here, later⟩ := stepped_bind_iff.1 made
  rw [other value _ _ _ later, one _ _ _ here, or_assoc]

/-- The rest of a step asks for nothing more. -/
theorem bind_none {first : Lower α} {rest : α → Lower β} (one : Asks first asked)
    (other : ∀ value, Asks (rest value) fun _ => False) : Asks (first >>= rest) asked :=
  (one.bind other).congr fun _ => iff_of_eq (or_false _)

theorem throw {failure : Failure} : Asks (throw failure : Lower α) asked := nofun

theorem reject {reason : Rejection} : Asks (reject reason : Lower α) asked := nofun

/-- A check asks for nothing, and what it has answered is known where the rest asks. -/
theorem check_bind {result : Except Rejection α} {rest : α → Lower β}
    (other : ∀ value, result = .ok value → Asks (rest value) asked) :
    Asks (check result >>= rest) asked := by
  intro progress answer after made
  obtain ⟨value, _, here, later⟩ := stepped_bind_iff.1 made
  obtain ⟨found, rfl⟩ := check_apply_iff.1 here
  exact other value found _ _ _ later

/-- The steps for the values of a list ask for what each of them asks for. -/
theorem mapM {step : α → Lower β} {list : List α} {asked : α → MethodId → Prop}
    (each : ∀ a ∈ list, Asks (step a) (asked a)) :
    Asks (list.mapM step) fun id => ∃ a ∈ list, asked a id := by
  induction list with
  | nil => exact pure.congr fun id => by simp
  | cons first rest ih =>
      rw [List.mapM_cons]
      refine congr ((each first (by simp)).bind fun value =>
        (ih fun a member => each a (List.mem_cons_of_mem _ member)).bind fun values => pure) ?_
      simp

end Asks

/-- A step that hands out nothing asks for nothing. -/
theorem Still.asks {step : Lower α} (still : Still step) : Asks step fun _ => False := by
  intro progress answer after made id
  rw [(still progress answer after made).2.1, or_false]

/-- What the rest of a step asks for after a part that hands out nothing. -/
theorem Still.asks_bind {first : Lower α} {rest : α → Lower β} {asked : MethodId → Prop}
    (still : Still first) (other : ∀ value, Asks (rest value) asked) :
    Asks (first >>= rest) asked :=
  (still.asks.bind other).congr fun _ => iff_of_eq (false_or _)

/-- A request asks for its method. -/
theorem asks_request {id : MethodId} {method : Method} : Asks (request id method) (· = id) := by
  rintro progress answer after ⟨⟩ other
  exact Agenda.mem_seen_request

theorem asks_enter {spot : Spot} : Asks (enter spot) fun _ => False := by
  rintro progress answer after ⟨⟩ id
  exact (iff_of_eq (or_false _)).symm

theorem asks_addHelper {function : Target.Function} :
    Asks (addHelper function) fun _ => False := by
  rintro progress answer after ⟨⟩ id
  exact (iff_of_eq (or_false _)).symm

end Lower

/-! ## Calls -/

namespace Job

variable {job : Job} {scope : Scope} {source : Instr}

/-- A callee is asked for where it is called. -/
theorem asks_requestCallee {callee : MethodId} :
    Lower.Asks (job.requestCallee callee) (· = callee) := by
  unfold requestCallee
  split
  · exact Lower.asks_request
  · exact .reject

/-- An arm of a dispatch function asks for its method. -/
theorem asks_dispatchArm {tag : Target.Expr} {args : List Target.Expr} {callee : MethodId}
    {classes : SortedSet String} :
    Lower.Asks (job.dispatchArm tag args callee classes) (· = callee) := by
  unfold dispatchArm
  refine Lower.Still.asks_bind (.mapM fun className _ => ?_) fun tags =>
    asks_requestCallee.bind_none fun function => ?_
  · split
    · exact .pure
    · exact .reject
  · split
    · exact .pure
    · exact .throw

/-- A dispatch function asks for the methods of its table. -/
theorem asks_dispatch {site : Call} {table : DispatchTable} :
    Lower.Asks (job.dispatch site table source) (· ∈ table.keys) := by
  unfold dispatch
  refine Lower.Still.check.asks_bind fun width => Lower.still_get.asks_bind fun progress => ?_
  refine ((Lower.Asks.mapM fun entry _ => asks_dispatchArm).bind fun arms =>
    Lower.asks_addHelper.bind fun _ => .pure).congr fun id => ?_
  simp [SortedMap.keys, eq_comm]

/-- A call asks for its implementations. -/
theorem asks_calleeOf {site : Call} :
    Lower.Asks (job.calleeOf site source) (· ∈ job.setting.program.implementations site) := by
  have direct {callee : MethodId} :
      Lower.Asks (do return some (← job.requestCallee callee)) (· = callee) :=
    asks_requestCallee.bind_none fun _ => .pure
  unfold calleeOf
  dsimp only
  split
  · next isStatic =>
    split
    · next found =>
      exact direct.congr fun id => by simp [Program.implementations, isStatic, found, eq_comm]
    · exact .reject
  · next isSpecial =>
    split
    · next found =>
      exact direct.congr fun id => by simp [Program.implementations, isSpecial, found, eq_comm]
    · next missing =>
      split
      · exact Lower.still_warn.asks_bind fun _ => Lower.Asks.pure.congr fun id => by
          simp [Program.implementations, isSpecial, missing]
      · exact .reject
  · next isVirtual =>
    refine Lower.Asks.check_bind fun table made => ?_
    refine Lower.Asks.congr ?_ fun id => mem_keys_dispatchTable made isVirtual
    split
    · next single => exact direct.congr fun id => by simp [SortedMap.keys, single]
    · exact asks_dispatch.bind_none fun _ => .pure

/-- A call asks for its implementations. -/
theorem asks_call {site : Call} :
    Lower.Asks (job.call scope site source) (· ∈ job.setting.program.implementations site) := by
  unfold call
  refine asks_calleeOf.bind_none fun callee => ?_
  split
  · exact .pure
  · exact Lower.Still.check.asks_bind fun operands => Lower.still_get.asks_bind fun progress =>
      Lower.Still.check.asks_bind fun args => .pure

/-! ## Instructions and blocks -/

/-- Some calls that may be made at most once may run a method. -/
def RunsAt (job : Job) (site? : Option Call) (callee : MethodId) : Prop :=
  ∃ site ∈ site?, callee ∈ job.setting.program.implementations site

@[simp] theorem runsAt_none {callee : MethodId} : job.RunsAt none callee ↔ False := by simp [RunsAt]

@[simp] theorem runsAt_some {site : Call} {callee : MethodId} :
    job.RunsAt (some site) callee ↔ callee ∈ job.setting.program.implementations site := by
  simp [RunsAt]

theorem asks_still {α : Type} {step : Lower α} (still : Lower.Still step) :
    Lower.Asks step (job.RunsAt none) :=
  still.asks.congr fun _ => runsAt_none.symm

/-- A step for a call, and nothing that asks for more. -/
theorem asks_call_bind {α : Type} {site : Call} {rest : Option Computed → Lower α}
    (others : ∀ answer, Lower.Asks (rest answer) fun _ => False) :
    Lower.Asks (job.call scope site source >>= rest) (job.RunsAt (some site)) :=
  (asks_call.bind others).congr fun _ => by simp

/-- An expression asks for what its call may run. -/
theorem asks_expr {value : Expr} :
    Lower.Asks (job.expr scope source value) (job.RunsAt value.site?) := by
  cases value with
  | use operand | unary _ operand | newArray _ operand | arrayLength | new =>
      exact asks_still (Lower.Still.check.bind fun value => .pure)
  | binary | arrayRead =>
      exact asks_still
        (Lower.Still.check.bind fun first => Lower.Still.check.bind fun second => .pure)
  | fieldRead base field possibleTypes => exact asks_still still_fieldValue
  | call site =>
      refine asks_call_bind fun answer => ?_
      split
      · exact .pure
      · exact .reject
  | nondet => exact asks_still .pure
  | cast operand type =>
      unfold expr
      dsimp only
      split
      · exact asks_still (Lower.Still.check.bind fun value => .pure)
      · exact .reject
  | unmodelled => exact .reject

/-- A plain instruction asks for what its call may run. -/
theorem asks_plainInstr :
    Lower.Asks (job.plainInstr scope source) (job.RunsAt source.site?) := by
  cases source with
  | assign target value =>
      exact asks_expr.bind_none fun computed => still_assign.asks_bind fun stored => .pure
  | call site =>
      refine asks_call_bind fun answer => ?_
      split <;> exact .pure
  | nop unreachable => cases unreachable <;> exact asks_still .pure
  | throw | identity | branch | goto | ret => exact .reject
  | aliased left right =>
      exact asks_still
        (Lower.Still.check.bind fun left => Lower.Still.check.bind fun right => .pure)

/-- An instruction asks for what its call may run. -/
theorem asks_instr {id : BlockId} :
    Lower.Asks (job.instr id scope source) (job.RunsAt source.site?) := by
  have plain : Lower.Asks (do return Lowered.plain (← job.plainInstr scope source))
      (job.RunsAt source.site?) :=
    asks_plainInstr.bind_none fun answer => .pure
  cases source with
  | branch condition =>
      exact asks_expr.bind_none fun computed => .pure
  | goto => exact asks_still .pure
  | ret value => exact asks_still (still_ret.bind fun steps => .pure)
  | identity target from_ =>
      refine asks_still ?_
      unfold instr
      dsimp only
      split
      · exact .pure
      · exact still_nameOfSource.bind fun param => Lower.Still.check.bind fun stored => .pure
  | assign | call | nop | throw | aliased => exact plain

/-- Instructions in a row ask for what their calls may run. -/
theorem asks_instrs {id : BlockId} {index : Nat} {scope : Scope} {list : List Instr} :
    Lower.Asks (job.instrs id index scope list) fun callee =>
      ∃ instr ∈ list, job.RunsAt instr.site? callee := by
  induction list generalizing index scope with
  | nil => exact Lower.Asks.pure.congr fun _ => by simp
  | cons first rest ih =>
      refine (Lower.asks_enter.bind fun _ => asks_instr.bind fun head =>
        ih.bind fun tail => .pure).congr fun callee => ?_
      simp

/-- Some blocks may run a method. -/
def MayRun (job : Job) (blocks : List BlockId) (callee : MethodId) : Prop :=
  ∃ id ∈ blocks, ∃ block, job.method.block? id = some block ∧
    ∃ site, block.Calls site ∧ callee ∈ job.setting.program.implementations site

@[simp] theorem mayRun_nil {callee : MethodId} : job.MayRun [] callee ↔ False := by simp [MayRun]

/-- What two lists of blocks may run is what either of them may. -/
@[simp] theorem mayRun_append {blocks more : List BlockId} {callee : MethodId} :
    job.MayRun (blocks ++ more) callee ↔ job.MayRun blocks callee ∨ job.MayRun more callee := by
  simp [MayRun, or_and_right, exists_or]

/-- A block asks for what its calls may run. -/
theorem asks_block {id : BlockId} : Lower.Asks (job.block scope id) (job.MayRun [id]) := by
  unfold block
  split
  · exact .reject
  · next block found =>
    refine Lower.Still.check.asks_bind fun opened => ?_
    refine (asks_instrs.bind fun body => .pure).congr fun callee => ?_
    simp only [MayRun, RunsAt, Block.Calls, List.mem_singleton, exists_eq_left, found,
      Option.some.injEq, exists_eq_left', or_false, Option.mem_def]
    grind

/-! ## Trees -/

/-- A step that hands out nothing, where no block is entered. -/
theorem asks_outside {α : Type} {step : Lower α} (still : Lower.Still step) :
    Lower.Asks step (job.MayRun []) :=
  still.asks.congr fun _ => mayRun_nil.symm

/-- A step asks for what the blocks that are lowered in it may run. -/
theorem tallies_asks : job.Tallies fun step _ blocks => Lower.Asks step (job.MayRun blocks) where
  still := asks_outside
  bind one other := (one.bind other).congr fun _ => mayRun_append.symm
  reject := .reject
  block := asks_block
  helper := Lower.asks_addHelper.congr fun _ => mayRun_nil.symm
  perm _ asks := asks

/-- A tree asks for what its blocks may run. -/
theorem asks_tree {scope : Scope} {tree : Tree} :
    Lower.Asks (job.tree scope tree) (job.MayRun tree.blocks) :=
  tallies_asks.tree none

end Job

/-! ## Methods -/

namespace Lower

variable {setting : Setting} {id : MethodId} {method : Method}

/-- A method asks for itself and for what it refers to. -/
theorem asks_method (isMethod : setting.program.method? id = some method) :
    Asks (Lower.method setting id method) fun callee =>
      callee = id ∨ setting.program.Refers id callee := by
  unfold Lower.method
  refine asks_request.bind fun function => Still.check.asks_bind fun plan => ?_
  cases built : BlockGraph.ofBlocks method.entry method.blocks with
  | error fault =>
      intro progress answer after made
      obtain ⟨_, _, fails, -⟩ := stepped_bind_iff.1 made
      simp only [structured, built] at fails
      cases fails
  | ok graph =>
      obtain ⟨forest, tree, flags, -, isMarked, structures⟩ := @structured_eq id method graph built
      have begins : Asks (modify fun progress : Progress =>
          { progress with recorded := .empty, helpers := [] }) fun _ => False := by
        rintro progress answer after ⟨⟩ id
        exact (iff_of_eq (or_false _)).symm
      rw [structures, bind_assoc]
      refine (Still.forM fun _ _ => still_warn).asks_bind fun _ => ?_
      rw [pure_bind]
      refine (begins.bind fun _ => Still.check.asks_bind fun entry =>
        Job.asks_tree.bind fun body => still_get.asks_bind fun progress => .pure).congr
          fun callee => ?_
      simp only [false_or, or_false, Job.MayRun, Program.Refers, Method.Calls, isMethod,
        Option.some.injEq, exists_eq_left', isMarked.whole]
      constructor
      · rintro ⟨id, known, block, found, site, calls, isCallee⟩
        obtain ⟨listed, isListed⟩ := BlockGraph.mem_ids_iff.1 known
        obtain ⟨reaches, -⟩ := (Method.block?_eq_some_iff built).1 isListed
        exact ⟨site, ⟨id, block, reaches, found, calls⟩, isCallee⟩
      · rintro ⟨site, ⟨id, block, reaches, found, calls⟩, isCallee⟩
        have listed := (Method.block?_eq_some_iff built).2 ⟨reaches, found⟩
        exact ⟨id, BlockGraph.mem_ids_iff.2 ⟨block, listed⟩, block, found, site, calls, isCallee⟩

/-! ## The queue -/

/-- If there are steps for all methods that are not done yet, more steps change nothing. -/
theorem queued_succ {steps : Nat} {progress : Progress} {done : List MethodId}
    (sound : progress.agenda.Sound setting.program done)
    (enough : setting.program.methods.size ≤ done.length + steps) :
    queued setting (steps + 1) progress = queued setting steps progress := by
  induction steps generalizing progress done with
  | zero =>
      refine queued_nil (List.eq_nil_of_length_eq_zero ?_)
      have known := sound.length_le
      omega
  | succ steps ih =>
      cases first : progress.agenda.queue with
      | nil => rw [queued_nil first, queued_nil first]
      | cons id rest =>
          obtain ⟨method, isMethod⟩ := sound.known id (by simp [first])
          rw [queued_cons first isMethod, queued_cons first isMethod, bind_apply, bind_apply]
          cases made : Lower.method setting id method
              { progress with agenda := { progress.agenda with queue := rest } } with
          | error failure => rfl
          | ok result =>
              have leads := (namedIn_method isMethod made).1
              rw [ok_bind, ok_bind, bind_apply, bind_apply, ih (leads.sound _ (sound.pop first))]
              rw [List.length_append, List.length_singleton]
              omega

/-- Where some methods are done, the entry and the callees of those have been asked for, and all
that have been asked for are reached. -/
structure Explored (setting : Setting) (done : List MethodId) (progress : Progress) : Prop where
  sound : progress.agenda.Sound setting.program done
  entry_mem : setting.program.entry ∈ progress.agenda.seen
  reached : ∀ id ∈ progress.agenda.seen, setting.program.Reached id
  closed : ∀ id ∈ done, ∀ callee, setting.program.Refers id callee → callee ∈ progress.agenda.seen

namespace Explored

variable {progress after last : Progress} {done rest : List MethodId} {code : MethodCode}

/-- The entry has been asked for at the start. -/
theorem begun (isMethod : setting.program.method? setting.program.entry = some method) :
    Explored setting [] (Lower.begun setting method) := by
  have seen {id : MethodId} : id ∈ (Lower.begun setting method).agenda.seen ↔
      id = setting.program.entry := by
    refine Agenda.mem_seen_request.trans ?_
    simp [Agenda.empty]
  refine ⟨sound_begun isMethod, seen.2 rfl, fun id member => ?_, by simp⟩
  rw [seen.1 member]
  exact .refl

/-- The callees of the first method of the queue have been asked for when it is lowered. -/
theorem step (explored : Explored setting done progress)
    (first : progress.agenda.queue = id :: rest)
    (isMethod : setting.program.method? id = some method)
    (made : Lower.method setting id method
      { progress with agenda := { progress.agenda with queue := rest } } = .ok (code, after)) :
    Explored setting (done ++ [id]) after := by
  obtain ⟨sound, entry_mem, reached, closed⟩ := explored
  have asks := asks_method isMethod _ code after made
  have seen (callee : MethodId) : callee ∈ after.agenda.seen ↔
      callee ∈ progress.agenda.seen ∨ callee = id ∨ setting.program.Refers id callee := asks callee
  have known : id ∈ progress.agenda.seen := (sound.seen_iff id).2 (by simp [first])
  constructor
  · exact (namedIn_method isMethod made).1.sound _ (sound.pop first)
  · exact (seen _).2 (.inl entry_mem)
  · intro callee member
    rcases (seen callee).1 member with before | rfl | refers
    · exact reached callee before
    · exact reached callee known
    · exact (reached id known).tail refers
  · intro other member callee refers
    rcases List.mem_append.1 member with member | member
    · exact (seen callee).2 (.inl (closed other member callee refers))
    · rw [List.mem_singleton] at member
      exact (seen callee).2 (.inr (.inr (member ▸ refers)))

/-- The queue runs through methods that are reached. -/
theorem queued {steps : Nat} {codes : List MethodCode} (explored : Explored setting done progress)
    (ran : Lower.queued setting steps progress = .ok (codes, last)) :
    ∃ ids, Explored setting (done ++ ids) last := by
  induction steps generalizing progress codes done with
  | zero =>
      cases ran
      exact ⟨[], by simpa using explored⟩
  | succ steps ih =>
      cases first : progress.agenda.queue with
      | nil =>
          rw [queued_nil first] at ran
          cases ran
          exact ⟨[], by simpa using explored⟩
      | cons id rest =>
          obtain ⟨method, isMethod⟩ := explored.sound.known id (by simp [first])
          rw [queued_cons first isMethod] at ran
          obtain ⟨code, between, one, ran⟩ := stepped_bind_iff.1 ran
          obtain ⟨others, _, more, ends⟩ := stepped_bind_iff.1 ran
          cases ends
          obtain ⟨ids, others⟩ := ih (explored.step first isMethod one) more
          exact ⟨id :: ids, by simpa using others⟩

/-- When the queue is empty, exactly the methods that are reached have been asked for. -/
theorem mem_seen_iff (explored : Explored setting done progress)
    (empty : progress.agenda.queue = []) :
    id ∈ progress.agenda.seen ↔ setting.program.Reached id := by
  refine ⟨explored.reached id, fun reached => ?_⟩
  induction reached with
  | refl => exact explored.entry_mem
  | tail _ refers ih =>
      have finished := (explored.sound.seen_iff _).1 ih
      rw [empty, List.append_nil] at finished
      exact explored.closed _ finished _ refers

end Explored

/-- When a program is lowered, the entry has its name, and the methods that are reached from it have
been asked for. -/
theorem explored_program {lowered : LoweredProgram} {last : Progress}
    (ran : Lower.program setting .start = .ok (lowered, last)) :
    lowered.program.entry = last.agenda.nameOf? setting.program.entry ∧
      ∃ done, Explored setting done last := by
  obtain ⟨method, codes, isMethod, goes, entry, -, -⟩ := program_cases ran
  obtain ⟨-, -, -, keeps, -⟩ := @forall₂_queued _ (fun _ _ _ => True)
    (fun _ _ _ _ _ _ => trivial)
    (fun _ _ _ _ _ isMethod made => ⟨(namedIn_method isMethod made).1, trivial⟩)
    _ _ _ _ _ (sound_begun isMethod) goes
  have named : (begun setting method).agenda.nameOf? setting.program.entry =
      some (Agenda.empty.request setting.program.entry method.className method.name).1 :=
    Agenda.nameOf?_request
  exact ⟨by rw [entry, named, keeps.names _ _ named], (Explored.begun isMethod).queued goes⟩

/-- The queue runs empty: after as many steps as there are methods, more steps change nothing. In a
program that is lowered, the methods that are lowered are exactly those that are reached from the
entry, each of them once and with one entry in the table of flags. -/
theorem program_reached (setting : Setting) :
    (∀ method, setting.program.method? setting.program.entry = some method →
      ∀ steps, setting.program.methods.size ≤ steps →
        queued setting steps (begun setting method) =
          queued setting setting.program.methods.size (begun setting method)) ∧
    ∀ lowered last, Lower.program setting .start = .ok (lowered, last) →
      last.agenda.queue = [] ∧
      ∃ ids codes, ids.Nodup ∧ (∀ id, id ∈ ids ↔ setting.program.Reached id) ∧
        List.Forall₂ (fun id code => last.agenda.nameOf? id = some code.name ∧
          ∃ method before after, setting.program.method? id = some method ∧
            Lower.method setting id method before = .ok (code, after)) ids codes ∧
        lowered.program.functions = codes.flatMap MethodCode.functions ∧
        (lowered.flags = codes.map fun code => (code.name, code.flags)) ∧
        (lowered.flags.map Prod.fst).Nodup := by
  constructor
  · intro method isMethod steps enough
    obtain ⟨more, rfl⟩ := Nat.exists_eq_add_of_le enough
    clear enough
    induction more with
    | zero => rfl
    | succ more ih => rw [← Nat.add_assoc, queued_succ (sound_begun isMethod) (by simp), ih]
  · intro lowered last ran
    obtain ⟨ids, codes, sound, empty, codesOf, functions, flags⟩ :=
      @forall₂_program _ (fun agenda id code => agenda.nameOf? id = some code.name ∧
          ∃ method before after, setting.program.method? id = some method ∧
            Lower.method setting id method before = .ok (code, after))
        (fun agenda later id code keeps ⟨named, made⟩ => ⟨keeps.names id code.name named, made⟩)
        (fun id method before code after isMethod made =>
          have ⟨leads, named⟩ := namedIn_method isMethod made
          ⟨leads, named.1, method, before, after, isMethod, made⟩)
        _ _ ran
    obtain ⟨-, done, explored⟩ := explored_program ran
    have once := sound.once
    rw [empty, List.append_nil] at once
    refine ⟨empty, ids, codes, once, fun id => ?_, codesOf, functions, flags, ?_⟩
    · rw [← explored.mem_seen_iff empty, sound.seen_iff, empty, List.append_nil]
    · rw [flags, List.map_map, List.Nodup, List.pairwise_map]
      apply pairwise_of_forall₂ codesOf once
      rintro one code two other ⟨isOne, -⟩ ⟨isTwo, -⟩ differ (same : code.name = other.name)
      exact differ (sound.apart one two code.name isOne (same ▸ isTwo))

end Lower

/-- A method that calls another one. -/
def callingMethod (name callee : String) : Method where
  className := "A"
  name := name
  isStatic := true
  params := []
  returnType := .void
  locals := []
  entry := ⟨0⟩
  blocks := [⟨⟨0⟩, [.call ⟨.static, ⟨"A", callee, 0⟩, none, [], .empty⟩, .ret none], []⟩]
  plan := none

/-- Two methods that call each other, and a third one that nothing calls. -/
def mutualSetting : Setting where
  program := {
    classes := []
    methods := .ofList [
      (.plain "A" "ping", callingMethod "ping" "pong"),
      (.plain "A" "pong", callingMethod "pong" "ping"),
      (.plain "A" "idle", callingMethod "idle" "ping")]
    entry := .plain "A" "ping" }
  layout := ⟨.empty, .empty, .empty⟩
  model := .mutable

/-- Two methods that call each other are both lowered. -/
theorem Lower.program_reached_mutual : ∃ lowered last,
    Lower.program mutualSetting .start = .ok (lowered, last) ∧
      lowered.flags.map Prod.fst = ["A_ping", "A_pong"] ∧
      (∃ ids : List MethodId, ids.Nodup ∧
        (∀ id, id ∈ ids ↔ mutualSetting.program.Reached id) ∧
        ids.length = lowered.flags.length) ∧
      queued mutualSetting 9 (begun mutualSetting (callingMethod "ping" "pong")) =
        queued mutualSetting 3 (begun mutualSetting (callingMethod "ping" "pong")) := by
  have found : (Lower.program mutualSetting .start).toOption.map
      (fun result => result.1.flags.map Prod.fst) = some ["A_ping", "A_pong"] := by
    decide +kernel
  have isMethod : mutualSetting.program.method? mutualSetting.program.entry =
      some (callingMethod "ping" "pong") := by decide +kernel
  obtain ⟨finishes, lowers⟩ := program_reached mutualSetting
  cases ran : Lower.program mutualSetting .start with
  | error failure =>
      rw [ran] at found
      cases found
  | ok result =>
      obtain ⟨lowered, last⟩ := result
      obtain ⟨-, ids, codes, once, all, codesOf, -, flags, -⟩ := lowers lowered last ran
      rw [ran] at found
      refine ⟨lowered, last, rfl, Option.some.inj found, ⟨ids, once, all, ?_⟩, ?_⟩
      · rw [flags, List.length_map, codesOf.length_eq]
      · exact finishes _ isMethod 9 (by decide)

end GotoFree
