import GotoFree.Proofs.ScopedInstrs

/-!
# Scoped calls

The code of a method calls functions of methods, which take no cells, the functions that are made
for it, and the function of the loop around it (`Job.Knows`). So code is scoped together with the
functions that are made for it (`Job.Promises`), of which only those of loops take cells.
-/

namespace GotoFree

open Target (Context Kinds Script Signature Stmt)

namespace Target.Signature

/-- No argument has to be a cell. -/
def IsPlain (signature : Signature) : Prop := ∀ entry ∈ signature.params, entry.2 = .plain

/-- A signature that asks for plain arguments accepts any. -/
theorem IsPlain.accepts {signature : Signature} (plain : signature.IsPlain) {context : Context}
    {args : List Target.Expr} : signature.Accepts context args := by
  intro index name isCell
  cases plain _ (List.mem_of_getElem? isCell)

end Target.Signature

/-- The functions of methods with names take no cells. -/
def Agenda.Signs (agenda : Agenda) (signatures : List Signature) : Prop :=
  ∀ name, agenda.Names name →
    ∃ signature ∈ signatures, signature.name = name ∧ signature.IsPlain

namespace Job

variable {job : Job} {scope : Scope} {later : Agenda} {loop inner : Option LoopFrame}
  {unit : Option Nat} {number : Nat} {source : Instr} {signatures : List Signature}
  {made more : List Target.Function} {holds others : List Signature → Prop}

/-- The function of a loop as its callers see it. -/
def signatureOf (job : Job) (frame : LoopFrame) : Signature :=
  ⟨frame.name, job.kinds.of frame.params⟩

/-- Among the functions that code of a method may call are those of methods, which take no cells,
and that of the loop around it. -/
structure Knows (job : Job) (later : Agenda) (loop : Option LoopFrame)
    (signatures : List Signature) : Prop where
  methods : later.Signs signatures
  loop : ∀ frame, loop = some frame → job.signatureOf frame ∈ signatures

/-- Functions that are made for code have signatures with which they are scoped, and with which the
code holds what it promises. Only the functions of loops take cells. -/
def Promises (job : Job) (later : Agenda) (loop : Option LoopFrame) (made : List Target.Function)
    (holds : List Signature → Prop) : Prop :=
  ∃ own : List Signature,
    (∀ signature ∈ own, signature.IsPlain ∨ ∃ head, signature.name = job.loopName head) ∧
    ∀ signatures, job.Knows later loop signatures → own ⊆ signatures →
      List.Forall₂ (Target.Function.Scoped job.setting.model.slotKind signatures) own made ∧
        holds signatures

namespace Promises

theorem nil (keeps : ∀ signatures, job.Knows later loop signatures → holds signatures) :
    job.Promises later loop [] holds :=
  ⟨[], by simp, fun signatures knows _ => ⟨.nil, keeps signatures knows⟩⟩

/-- What is promised may be weakened. -/
theorem imp (promises : job.Promises later loop made holds)
    (weaken : ∀ signatures, job.Knows later loop signatures → holds signatures →
      others signatures) : job.Promises later loop made others := by
  obtain ⟨own, plain, keeps⟩ := promises
  refine ⟨own, plain, fun signatures knows known => ?_⟩
  obtain ⟨bodies, here⟩ := keeps signatures knows known
  exact ⟨bodies, weaken signatures knows here⟩

/-- What two parts promise is promised of both. -/
theorem append (first : job.Promises later loop made holds)
    (second : job.Promises later loop more others) :
    job.Promises later loop (made ++ more) fun signatures =>
      holds signatures ∧ others signatures := by
  obtain ⟨own, plain, keeps⟩ := first
  obtain ⟨ownMore, plainMore, keepsMore⟩ := second
  refine ⟨own ++ ownMore, List.forall_mem_append.2 ⟨plain, plainMore⟩, ?_⟩
  intro signatures knows known
  rw [List.append_subset] at known
  obtain ⟨bodies, here⟩ := keeps signatures knows known.1
  obtain ⟨bodiesMore, there⟩ := keepsMore signatures knows known.2
  exact ⟨List.rel_append bodies bodiesMore, here, there⟩

/-- A function that is made after others may be called. -/
theorem snoc (promises : job.Promises later inner made holds) {signature : Signature}
    {function : Target.Function}
    (plain : signature.IsPlain ∨ ∃ head, signature.name = job.loopName head)
    (enters : ∀ signatures, job.Knows later loop signatures → signature ∈ signatures →
      job.Knows later inner signatures)
    (inScope : ∀ signatures, job.Knows later inner signatures → holds signatures →
      function.Scoped job.setting.model.slotKind signatures signature) :
    job.Promises later loop (made ++ [function]) fun signatures => signature ∈ signatures := by
  obtain ⟨own, plainOwn, keeps⟩ := promises
  refine ⟨own ++ [signature],
    List.forall_mem_append.2 ⟨plainOwn, List.forall_mem_singleton.2 plain⟩, ?_⟩
  intro signatures knows known
  rw [List.append_subset, List.cons_subset] at known
  have knowsInner := enters signatures knows known.2.1
  obtain ⟨bodies, here⟩ := keeps signatures knowsInner known.1
  exact ⟨List.rel_append bodies (.cons (inScope signatures knowsInner here) .nil), known.2.1⟩

end Promises

/-- A step that makes no functions, with what it answers under a condition. -/
theorem Quiet.promises {α : Type} {step : Lower α} {condition : Prop}
    {holds : α → List Signature → Prop} (quiet : job.Quiet later unit step)
    (yields : condition → Lower.Yields step fun answer =>
      ∀ signatures, job.Knows later loop signatures → holds answer signatures) :
    Lower.Gives (·.Within job.setting.program later unit) step fun answer made =>
      condition → job.Promises later loop made (holds answer) := by
  refine Lower.Gives.imp (quiet.under yields) ?_
  rintro answer made ⟨rfl, keeps⟩ condition
  exact .nil (keeps condition)

/-! ## Dispatch -/

/-- What the names in a dispatch function stand for. -/
def dispatchKinds (model : ObjectModel) : Kinds := fun name =>
  if name = "__tag" then model.slotKind else .plain

/-- The tag is no other parameter of a dispatch function. -/
theorem tag_notMem_dispatchParams {site : Call} : "__tag" ∉ dispatchParams site := by
  intro member
  rcases List.mem_cons.1 member with this | member
  · exact absurd this (by decide)
  · obtain ⟨index, -, same⟩ := List.mem_map.1 member
    have third := congrArg (fun name => name.toList[2]?) same
    simp [String.toList_append] at third

/-- The signature of a dispatch function. -/
def dispatchSignature (number : Nat) (site : Call) : Signature :=
  ⟨dispatchName number, (dispatchParams site).map fun name => (name, .plain)⟩

/-- A dispatch function asks for plain arguments. -/
theorem isPlain_dispatchSignature {site : Call} : (dispatchSignature number site).IsPlain := by
  intro entry member
  obtain ⟨name, -, rfl⟩ := List.mem_map.1 member
  rfl

theorem params_dispatchSignature {site : Call} {model : ObjectModel} :
    (dispatchSignature number site).params = (dispatchKinds model).of (dispatchParams site) := by
  refine List.map_congr_left fun name member => ?_
  rw [dispatchKinds, if_neg]
  rintro rfl
  exact tag_notMem_dispatchParams member

/-- A receiver has a slot for its tag at least. -/
theorem pos_of_receiverWidth (fair : job.Fair) {site : Call} {width : Nat}
    (shared : job.receiverWidth site source = .ok width) : 0 < width := by
  obtain ⟨widths, found, one⟩ := bind_eq_ok_iff.1 shared
  split at one
  · next only same =>
    cases one
    have member : width ∈ widths := by
      rw [← SortedSet.mem_ofList, ← SortedSet.mem_toList, same]
      exact List.mem_singleton_self _
    obtain ⟨className, -, wide⟩ := exists_of_mem_right (mapM_eq_ok_iff.1 found) member
    split at wide
    · next known =>
      cases wide
      exact fair.tagged className _ known
    · cases wide
  · cases one

/-- A dispatch function passes its own parameters to the functions of methods. -/
theorem Dispatcher.inScope (fair : job.Fair) {function : Target.Function}
    (isDispatcher : job.Dispatcher later number function) :
    ∃ signature : Signature, signature.name = function.name ∧ signature.IsPlain ∧
      ∀ signatures, job.Knows later loop signatures →
        function.Scoped job.setting.model.slotKind signatures signature := by
  obtain ⟨site, instr, width, arms, type, shared, areArms, rfl⟩ := isDispatcher
  refine ⟨dispatchSignature number site, rfl, isPlain_dispatchSignature, fun signatures knows => ?_⟩
  refine ⟨rfl, by simp [dispatchSignature, Function.comp_def], ?_⟩
  rw [@params_dispatchSignature _ _ job.setting.model]
  have isSlot : dispatchKinds job.setting.model (tagHandle width).cell =
      job.setting.model.slotKind := if_pos rfl
  have this : "this" ∈ dispatchParams site := List.mem_cons_self
  obtain ⟨fits, member⟩ := @ObjectModel.fits_pattern _ _ signatures _ _
    (pos_of_receiverWidth fair shared) isSlot (.var (Kinds.lookup_of this))
  refine (Script.fits_append_iff.2 ⟨fits, Script.fits_ofStmts_iff.2 fun stmt among => ?_⟩).stmts
  rcases List.mem_append.1 among with among | among
  · obtain ⟨tags, test, callee, isTest, named, rfl⟩ := areArms stmt among
    obtain ⟨signature, known, rfl, plain⟩ := knows.methods callee named
    have tested :=
      (@ObjectModel.scoped_read _ _ signatures _ _ isSlot member).anyOf? isTest
    refine .cond tested (List.forall_mem_singleton.2 (.ret (.call known ?_ plain.accepts))) nofun
    intro arg isArg
    obtain ⟨name, isParam, rfl⟩ := List.mem_map.1 isArg
    exact .var (Kinds.lookup_of (Script.subset_opened isParam))
  · rcases List.mem_cons.1 among with rfl | among
    · exact .assert .bool
    · obtain rfl := List.mem_singleton.1 among
      exact .ret Ty.scoped_default

/-- A call goes to a function that takes no cells. -/
theorem Reaches.promises (fair : job.Fair) {function : String}
    (reaches : job.Reaches later number function made) :
    job.Promises later loop made fun signatures =>
      ∃ signature ∈ signatures, signature.name = function ∧ signature.IsPlain := by
  obtain ⟨rfl, named⟩ | ⟨dispatcher, rfl, rfl, isDispatcher⟩ := reaches
  · exact .nil fun signatures knows => knows.methods function named
  · obtain ⟨signature, name, plain, inScope⟩ := @Dispatcher.inScope _ _ loop _ fair _ isDispatcher
    have own := Promises.snoc (@Promises.nil job later loop (fun _ => True) fun _ _ => trivial)
      (.inl plain) (fun _ knows _ => knows) fun signatures knows _ => inScope signatures knows
    exact own.imp fun signatures _ member => ⟨signature, member, name, plain⟩

/-! ## Values -/

/-- What a step computes is scoped with the functions that are made for it. -/
def Backed (job : Job) (later : Agenda) (scope : Scope) (computed : Computed)
    (made : List Target.Function) : Prop :=
  job.Promises later scope.loop made fun signatures =>
    ∀ names, job.loopParams scope ⊆ names → job.Computes signatures names computed

/-- The function that a call runs accepts what is passed. -/
theorem gives_backed_call (fair : job.Fair) {site : Call} :
    Lower.Gives (·.Within job.setting.program later (some number)) (job.call scope site source)
      fun answer made => job.Planned scope → (answer = none ∧ made = []) ∨
        ∃ computed, answer = some computed ∧ job.Backed later scope computed made := by
  refine gives_call.imp fun answer made found planned => ?_
  refine found.imp_right ?_
  rintro ⟨function, temporaries, operands, args, -, passed, rfl, serves⟩
  refine ⟨_, rfl, (serves.reaches.promises fair).imp fun signatures knows callee names shown => ?_⟩
  obtain ⟨signature, known, rfl, plain⟩ := callee
  obtain ⟨before, ready, after⟩ := @computes_args _ _ signatures _ fair planned shown _ _ _ passed
  exact ⟨before, ⟨.call known (fun value member => (ready value member).inScope) plain.accepts,
    nofun⟩, after⟩

/-- An expression computes a scoped value. -/
theorem gives_backed_expr (fair : job.Fair) {value : Expr} :
    Lower.Gives (·.Within job.setting.program later (some number)) (job.expr scope source value)
      fun computed made => job.Planned scope → job.Backed later scope computed made := by
  have pure {value : Target.Expr} (ready : job.Planned scope → ∀ signatures names,
      job.loopParams scope ⊆ names → job.Ready signatures names value) :
      job.Planned scope → job.Backed later scope (.pure value) [] := fun planned =>
    .nil fun signatures _ names shown => .pure (ready planned signatures names shown)
  cases value with
  | use operand =>
      refine (Lower.Answers.check fun value found => found).bind fun value => .pure fun found => ?_
      exact pure fun planned _ _ shown => ready_operand fair planned shown found
  | binary op left right =>
      refine (Lower.Answers.check fun value found => found).bind fun left =>
        (Lower.Answers.check fun value found => found).bind fun right => .pure ?_
      intro isRight isLeft
      refine pure fun planned _ _ shown => ⟨.binary ?_ ?_, nofun⟩
      · exact (ready_operand fair planned shown isLeft).inScope
      · exact (ready_operand fair planned shown isRight).inScope
  | unary op operand =>
      refine (Lower.Answers.check fun value found => found).bind fun value => .pure fun found => ?_
      exact pure fun planned _ _ shown =>
        ⟨.unary (ready_operand fair planned shown found).inScope, nofun⟩
  | fieldRead base field possibleTypes =>
      refine quiet_fieldValue.promises fun planned => ?_
      refine (yields_fieldValue fair planned).imp
        fun computed computes signatures _ names shown => ?_
      exact computes signatures names shown
  | arrayRead base index =>
      refine (Lower.Answers.check fun value found => found).bind fun array =>
        (Lower.Answers.check fun value found => found).bind fun position => .pure ?_
      intro isPosition isArray
      refine pure fun planned _ _ shown => ⟨.index ?_ ?_, nofun⟩
      · exact (ready_valueOf fair planned shown isArray).inScope
      · exact (ready_operand fair planned shown isPosition).inScope
  | arrayLength base =>
      refine (Lower.Answers.check fun value found => found).bind fun value => .pure fun found => ?_
      exact pure fun planned _ _ shown =>
        ⟨.length (ready_valueOf fair planned shown found).inScope, nofun⟩
  | new className =>
      refine (Lower.Answers.check fun value found => found).bind fun value => .pure fun found => ?_
      exact pure fun _ _ _ _ => ready_allocate found
  | newArray type size =>
      refine (Lower.Answers.check fun value found => found).bind fun value => .pure fun found => ?_
      exact pure fun planned _ _ shown =>
        ⟨.mkArray (ready_operand fair planned shown found).inScope, nofun⟩
  | call site =>
      refine (gives_backed_call fair).bind fun answer => ?_
      split
      · next computed =>
        refine .pure fun made found planned => ?_
        obtain ⟨none, -⟩ | ⟨_, ⟨⟩, backed⟩ := found planned
        · cases none
        · rwa [List.append_nil]
      · exact .reject
  | nondet => exact .pure (pure fun _ _ _ _ => ⟨.nondet, nofun⟩)
  | cast operand type =>
      unfold expr
      dsimp only
      split
      · refine (Lower.Answers.check fun value found => found).bind fun value =>
          .pure fun found => ?_
        exact pure fun planned _ _ shown => ready_operand fair planned shown found
      · exact .reject
  | unmodelled => exact .reject

end Job

end GotoFree
