import GotoFree.Proofs.Reordering

/-!
# Entry methods without an argument vector

Taking away the argument vector of the entry method makes an idle instruction of every copy of it,
and removes the local that it was copied into last (`Method.Strips`). The rest of the program stays
as it is, and nothing is left to take away (`Program.withoutArguments_strips`). But uses are looked
for of that one local only: a local that got the vector before may still be used, and then has lost
its value (`Program.not_unused_measuring`).
-/

namespace GotoFree

/-! ## Locals an instruction mentions -/

/-- An operand with other names for locals. -/
def Operand.renamed (rename : String → String) : Operand → Operand
  | .var name => .var (rename name)
  | constant => constant

/-- A call with other names for locals. -/
def Call.renamed (rename : String → String) (site : Call) : Call :=
  { site with
    receiver := site.receiver.map rename
    args := site.args.map (Operand.renamed rename) }

/-- An expression with other names for locals. -/
def Expr.renamed (rename : String → String) : Expr → Expr
  | .use operand => .use (operand.renamed rename)
  | .binary op left right => .binary op (left.renamed rename) (right.renamed rename)
  | .unary op operand => .unary op (operand.renamed rename)
  | .fieldRead base field possibleTypes => .fieldRead (rename base) field possibleTypes
  | .arrayRead base index => .arrayRead (rename base) (index.renamed rename)
  | .arrayLength base => .arrayLength (rename base)
  | .newArray element size => .newArray element (size.renamed rename)
  | .call site => .call (site.renamed rename)
  | .cast operand type => .cast (operand.renamed rename) type
  | .new className => .new className
  | .nondet => .nondet
  | .unmodelled text operandTypes => .unmodelled text operandTypes

/-- A place with other names for locals. -/
def Place.renamed (rename : String → String) : Place → Place
  | .var name => .var (rename name)
  | .field base target possibleTypes => .field (rename base) target possibleTypes
  | .arrayElement base index => .arrayElement (rename base) (index.renamed rename)

/-- An instruction with other names for locals. -/
def Instr.renamed (rename : String → String) : Instr → Instr
  | .identity target source => .identity (rename target) source
  | .assign target value => .assign (target.renamed rename) (value.renamed rename)
  | .branch condition => .branch (condition.renamed rename)
  | .goto => .goto
  | .ret value => .ret (value.map (Operand.renamed rename))
  | .call site => .call (site.renamed rename)
  | .nop unreachable => .nop unreachable
  | .throw value => .throw (value.renamed rename)
  | .aliased left right =>
      .aliased { left with base := rename left.base } { right with base := rename right.base }

/-- An instruction reads a local or writes to it: it is another one if the local gets another
name. -/
def Instr.Mentions (instr : Instr) (name : String) : Prop :=
  ∃ rename, (∀ other, other ≠ name → rename other = other) ∧ instr.renamed rename ≠ instr

section

variable {rename : String → String}

/-- Renaming leaves an operand as it is if it leaves its local. -/
theorem Operand.renamed_eq_self_iff {operand : Operand} :
    operand.renamed rename = operand ↔ ∀ name, operand.var? = some name → rename name = name := by
  cases operand <;> simp [renamed, var?]

/-- Renaming leaves a call as it is if it leaves all locals of it. -/
theorem Call.renamed_eq_self_iff {site : Call} :
    site.renamed rename = site ↔ ∀ name ∈ site.locals, rename name = name := by
  obtain ⟨kind, callee, receiver, args, possibleReceivers⟩ := site
  have sameReceiver : receiver.map rename = receiver ↔
      ∀ name, receiver = some name → rename name = name := by
    cases receiver <;> simp
  have sameArgs : args.map (Operand.renamed rename) = args ↔
      ∀ operand ∈ args, operand.renamed rename = operand := by
    simpa using @List.map_inj_left _ _ args (Operand.renamed rename) id
  simp only [renamed, locals, mk.injEq, true_and, and_true, sameReceiver, sameArgs,
    Operand.renamed_eq_self_iff, List.mem_append, Option.mem_toList, List.mem_filterMap, or_imp,
    forall_and]
  refine and_congr_right fun _ => ⟨?_, fun same operand member name is => ?_⟩
  · rintro same name ⟨operand, member, is⟩
    exact same operand member name is
  · exact same name ⟨operand, member, is⟩

/-- Renaming leaves an expression as it is if it leaves all locals of it. -/
theorem Expr.renamed_eq_self_iff {expr : Expr} :
    expr.renamed rename = expr ↔ ∀ name ∈ expr.locals, rename name = name := by
  cases expr <;>
    simp [renamed, locals, Operand.renamed_eq_self_iff, Call.renamed_eq_self_iff, or_imp,
      forall_and]

/-- Renaming leaves a place as it is if it leaves its locals, and the local that it is. -/
theorem Place.renamed_eq_self_iff {place : Place} : place.renamed rename = place ↔
    (∀ name ∈ place.locals, rename name = name) ∧
      ∀ name, place = .var name → rename name = name := by
  cases place <;> simp [renamed, locals, Operand.renamed_eq_self_iff, and_comm]

/-- What an instruction reads and what it defines are all that it mentions. -/
theorem Instr.renamed_eq_self_iff {instr : Instr} : instr.renamed rename = instr ↔
    ∀ name, name ∈ instr.uses ∨ instr.defines? = some name → rename name = name := by
  cases instr with
  | assign target value =>
      have defined (name : String) :
          (assign target value).defines? = some name ↔ target = .var name := by
        cases target <;> simp [defines?]
      simp only [renamed, assign.injEq, Place.renamed_eq_self_iff, Expr.renamed_eq_self_iff, uses,
        defined, SortedSet.mem_ofList, List.mem_append, or_imp, forall_and]
      exact and_right_comm
  | ret value => cases value <;> simp [renamed, uses, defines?, Operand.renamed_eq_self_iff]
  | aliased left right => cases left; cases right; simp [renamed, uses, defines?]
  | _ => simp [renamed, uses, defines?, Expr.renamed_eq_self_iff, Operand.renamed_eq_self_iff,
      Call.renamed_eq_self_iff]

end

/-- An instruction mentions what it uses and what it defines. -/
theorem Instr.mentions_iff {instr : Instr} {name : String} :
    instr.Mentions name ↔ name ∈ instr.uses ∨ instr.defines? = some name := by
  unfold Mentions
  constructor
  · rintro ⟨rename, keeps, changes⟩
    by_contra unmentioned
    refine changes (renamed_eq_self_iff.2 fun other mentioned => keeps other ?_)
    rintro rfl
    exact unmentioned mentioned
  · intro mentioned
    refine ⟨fun other => if other = name then name ++ "'" else other,
      fun other differs => if_neg differs, fun same => ?_⟩
    have renamed := renamed_eq_self_iff.1 same name mentioned
    simp at renamed

@[simp] theorem Instr.mentions_identity {target name : String} {source : Source} :
    (Instr.identity target source).Mentions name ↔ target = name := by
  simp [mentions_iff, uses, defines?]

@[simp] theorem Instr.not_mentions_nop {unreachable : Bool} {name : String} :
    ¬ (Instr.nop unreachable).Mentions name := by
  simp [mentions_iff, uses, defines?]

/-- A plan is another one without a local. -/
structure BindingPlan.Loses (name : String) (plan left : BindingPlan) : Prop where
  entry : ∀ other, left.entry.get? other = if other = name then none else plan.entry.get? other
  blocks : ∀ id, Option.Rel (fun locals rest => ∀ other,
    rest.get? other = if other = name then none else locals.get? other)
      (plan.blocks.get? id) (left.blocks.get? id)

namespace Method

variable {method original : Method} {name : String} {instr : Instr}

/-! ## Copies of the argument vector -/

/-- A method copies its argument vector into a local. -/
def Copies (method : Method) (name : String) : Prop :=
  .identity name argumentSource ∈ method.instrs

instance : Decidable (method.Copies name) :=
  inferInstanceAs (Decidable (_ ∈ method.instrs))

/-- A method copies its argument vector into a local, and into no other one after that. -/
def CopiesLast (method : Method) (name : String) : Prop :=
  ∃ front back, method.instrs = front ++ .identity name argumentSource :: back ∧
    ∀ other, .identity other argumentSource ∉ back

/-- The last copy of the vector is one of its copies. -/
theorem CopiesLast.copies (last : method.CopiesLast name) : method.Copies name := by
  obtain ⟨front, back, same, -⟩ := last
  simp [Copies, same]

/-- The local that stands for a source is that of its last copy. -/
theorem get?_argumentLocals_eq_some_iff :
    method.argumentLocals.get? argumentSource = some name ↔ method.CopiesLast name := by
  rw [argumentLocals, SortedMap.ofList, SortedMap.get?_foldl_insert, SortedMap.get?_empty,
    Option.or_none, ← List.filterMap_reverse, List.find?_filterMap, Option.map_eq_some_iff]
  constructor
  · rintro ⟨entry, found, rfl⟩
    obtain ⟨instr, first, made⟩ := Option.bind_eq_some_iff.1 found
    split at made
    · next target source =>
      cases made
      obtain ⟨is, later, earlier, same, none⟩ := List.find?_eq_some_iff_append.1 first
      have isArgument : source = argumentSource := by simpa using is
      refine ⟨earlier.reverse, later.reverse, ?_, fun other member => ?_⟩
      · rw [← List.reverse_reverse method.instrs, same, isArgument]
        simp
      · simpa using none _ (List.mem_reverse.1 member)
    · cases made
  · rintro ⟨front, back, same, none⟩
    refine ⟨(argumentSource, name),
      Option.bind_eq_some_iff.2 ⟨.identity name argumentSource, ?_, rfl⟩, rfl⟩
    rw [List.find?_eq_some_iff_append, same]
    refine ⟨by simp, back.reverse, front.reverse, by simp, fun instr member => ?_⟩
    rw [List.mem_reverse] at member
    split
    · next target source =>
      have differs : source ≠ argumentSource := by
        rintro rfl
        exact none target member
      simp [differs]
    · rfl

/-- What touches a local mentions it, other than by copying an argument into it. -/
theorem touches_iff : touches name instr = true ↔
    instr.Mentions name ∧ ∀ target source, instr ≠ .identity target source := by
  cases instr <;> simp [touches, Instr.mentions_iff]

/-- No use of the argument vector is found if only identity instructions mention the local that it
is copied into last. -/
theorem argumentUse?_eq_none_iff : method.argumentUse? = none ↔
    ∀ name, method.CopiesLast name → ∀ instr ∈ method.instrs, instr.Mentions name →
      ∃ target source, instr = .identity target source := by
  simp only [argumentUse?, Option.bind_eq_bind, Option.bind_eq_none_iff, List.find?_eq_none,
    get?_argumentLocals_eq_some_iff, touches_iff, not_and, not_forall, not_not]

/-! ## What is left -/

/-- An instruction becomes idle if it copies the argument vector, and stays as it is otherwise. -/
def Idles (instr after : Instr) : Prop :=
  (∃ name, instr = .identity name argumentSource ∧ after = .nop false) ∨
    (∀ name, instr ≠ .identity name argumentSource) ∧ after = instr

/-- A method is what is left of another one when its argument vector is taken away. -/
structure Strips (original left : Method) : Prop where
  heading : left = { original with
    params := [], locals := left.locals, blocks := left.blocks, plan := left.plan }
  blocks : List.Forall₂ (fun block rest => rest.id = block.id ∧ rest.succs = block.succs ∧
    List.Forall₂ Idles block.instrs rest.instrs) original.blocks left.blocks
  locals : ∀ name, original.CopiesLast name →
    left.locals = original.locals.filter (fun declared => declared.name ≠ name) ∧
      Option.Rel (BindingPlan.Loses name) original.plan left.plan
  uncopied : (∀ name, ¬ original.Copies name) →
    left.locals = original.locals ∧ left.plan = original.plan

/-- An instruction idles if dropping the copies of the vector leaves it so. -/
theorem idles_iff {after : Instr} : Idles instr after ↔ dropArgumentCopy instr = after := by
  unfold Idles
  cases instr with
  | identity target source =>
      by_cases isArgument : source = argumentSource <;>
        simp [dropArgumentCopy, isArgument, @eq_comm _ after]
  | _ => simp [dropArgumentCopy, @eq_comm _ after]

/-- A plan without a local loses that local and no other. -/
theorem loses_withoutLocal {plan : BindingPlan} : plan.Loses name (withoutLocal plan name) := by
  have erased {locals : SortedMap String Binding} (other : String) :
      (locals.erase name).get? other = if other = name then none else locals.get? other := by
    rw [SortedMap.get?_erase]
    exact if_congr eq_comm rfl rfl
  refine ⟨fun other => erased other, fun id => ?_⟩
  rw [withoutLocal, SortedMap.get?_mapValues]
  cases plan.blocks.get? id with
  | none => exact .none
  | some locals => exact .some fun other => erased other

/-- A method loses its vector, the copies of it and the local of the last copy. -/
theorem strips_withoutArguments : original.Strips original.withoutArguments := by
  have blocks : List.Forall₂ (fun block rest => rest.id = block.id ∧ rest.succs = block.succs ∧
      List.Forall₂ Idles block.instrs rest.instrs) original.blocks
      (original.blocks.map fun block =>
        { block with instrs := block.instrs.map dropArgumentCopy }) := by
    rw [List.forall₂_map_right_iff, List.forall₂_same]
    refine fun block _ => ⟨rfl, rfl, ?_⟩
    rw [List.forall₂_map_right_iff, List.forall₂_same]
    exact fun instr _ => idles_iff.2 rfl
  unfold withoutArguments
  dsimp only
  split
  · next none =>
    refine ⟨rfl, blocks, fun name last => ?_, fun _ => ⟨rfl, rfl⟩⟩
    rw [← get?_argumentLocals_eq_some_iff, none] at last
    cases last
  · next found isLast =>
    refine ⟨rfl, blocks, fun name last => ?_, fun none => ?_⟩
    · rw [← get?_argumentLocals_eq_some_iff, isLast] at last
      cases last
      refine ⟨rfl, ?_⟩
      dsimp only
      cases original.plan with
      | none => exact .none
      | some plan => exact .some loses_withoutLocal
    · exact absurd (get?_argumentLocals_eq_some_iff.1 isLast).copies (none found)

namespace Strips

variable {left : Method} (strips : original.Strips left)

include strips

/-- The instructions that are left are the old ones, with the copies dropped. -/
theorem instrs_eq : left.instrs = original.instrs.map dropArgumentCopy := by
  have related : List.Forall₂ Idles original.instrs left.instrs :=
    List.rel_flatMap strips.blocks fun _ _ related => related.2.2
  rw [← List.forall₂_eq_eq_eq, List.forall₂_map_right_iff]
  exact related.flip.imp fun _ _ idles => (idles_iff.1 idles).symm

/-- No copy of the vector is left. -/
theorem not_copies : ¬ left.Copies name := by
  intro copies
  rw [Copies, strips.instrs_eq] at copies
  obtain ⟨instr, -, same⟩ := List.mem_map.1 copies
  obtain ⟨-, -, idle⟩ | ⟨other, same⟩ := idles_iff.2 same
  · cases idle
  · exact other name same.symm

/-- What is still mentioned are the locals that other instructions than copies mention. -/
theorem mentioned_iff : (∃ instr ∈ left.instrs, instr.Mentions name) ↔
    ∃ instr ∈ original.instrs, instr.Mentions name ∧ instr ≠ .identity name argumentSource := by
  simp only [strips.instrs_eq, List.mem_map, exists_exists_and_eq_and]
  refine exists_congr fun instr => and_congr_right fun _ => ?_
  obtain ⟨copied, rfl, idle⟩ | ⟨other, stays⟩ := idles_iff.2 (Eq.refl (dropArgumentCopy instr))
  · simp [idle]
  · simp [stays, other name]

/-- If only identities mention the local of the last copy, no local that got the vector is mentioned
any more exactly if the other locals were mentioned by their copies only, and the last one took no
other value. -/
theorem unused_iff (checked : original.argumentUse? = none) :
    (∀ name, original.Copies name → ∀ instr ∈ left.instrs, ¬ instr.Mentions name) ↔
      (∀ name, original.Copies name → ¬ original.CopiesLast name →
        ∀ instr ∈ original.instrs, instr.Mentions name → instr = .identity name argumentSource) ∧
      ∀ name, original.CopiesLast name →
        ∀ source, .identity name source ∈ original.instrs → source = argumentSource := by
  have unused (name : String) : (∀ instr ∈ left.instrs, ¬ instr.Mentions name) ↔
      ∀ instr ∈ original.instrs, instr.Mentions name → instr = .identity name argumentSource := by
    have mentioned := not_congr (@mentioned_iff original name left strips)
    simpa only [not_exists, not_and, not_not] using mentioned
  simp only [unused]
  constructor
  · refine fun copiesOnly => ⟨fun name copies _ => copiesOnly name copies,
      fun name last source member => ?_⟩
    have same := copiesOnly name last.copies _ member (Instr.mentions_identity.2 rfl)
    exact (Instr.identity.inj same).2
  · rintro ⟨others, untouched⟩ name copies instr member mentions
    by_cases last : original.CopiesLast name
    · obtain ⟨target, source, rfl⟩ :=
        argumentUse?_eq_none_iff.1 checked name last instr member mentions
      obtain rfl := Instr.mentions_identity.1 mentions
      rw [untouched target last source member]
    · exact others name copies last instr member mentions

end Strips

end Method

namespace Program

variable {program prepared : Program}

/-- A second run finds nothing to drop. -/
theorem withoutArguments_idem (chosen : program.withoutArguments = .ok prepared) :
    prepared.withoutArguments = .ok prepared := by
  obtain ⟨method, isEntry, isStatic, none⟩ := entry_of_withoutArguments chosen
  exact withoutArguments_eq_ok_iff.2 ⟨method, isEntry, isStatic, .inl ⟨none, rfl⟩⟩

/-- The argument vector is taken away if the entry is static, and takes no arguments or a command
line whose last copy only identities mention. Then the entry takes no arguments, of a method without
arguments all stays as it is, and of a command line no copy is left, and nothing else has changed.
But only the local of the last copy is looked at: locals that got the vector are not mentioned any
more exactly if the others were mentioned by their copies only, and the last one took no other
value. -/
theorem withoutArguments_strips :
    ((∃ prepared, program.withoutArguments = .ok prepared) ↔
      ∃ original, program.method? program.entry = some original ∧ original.isStatic = true ∧
        (original.params = [] ∨ isCommandLine original.params = true ∧
          ∀ name, original.CopiesLast name → ∀ instr ∈ original.instrs, instr.Mentions name →
            ∃ target source, instr = .identity target source)) ∧
    ∀ prepared, program.withoutArguments = .ok prepared →
      prepared.withoutArguments = .ok prepared ∧
      ∃ original left, program.method? program.entry = some original ∧ left.isStatic = true ∧
        left.params = [] ∧
        prepared = { program with methods := prepared.methods } ∧
        (∀ id, prepared.method? id = if id = program.entry then some left else program.method? id) ∧
        (original.params = [] → prepared = program) ∧
        (original.params ≠ [] → isCommandLine original.params = true ∧ original.Strips left ∧
          (∀ name, ¬ left.Copies name) ∧
          ((∀ name, original.Copies name → ∀ instr ∈ left.instrs, ¬ instr.Mentions name) ↔
            (∀ name, original.Copies name → ¬ original.CopiesLast name →
              ∀ instr ∈ original.instrs, instr.Mentions name →
                instr = .identity name Method.argumentSource) ∧
            ∀ name, original.CopiesLast name → ∀ source,
              .identity name source ∈ original.instrs → source = Method.argumentSource)) := by
  constructor
  · simp only [withoutArguments_eq_ok_iff, ← Method.argumentUse?_eq_none_iff]
    constructor
    · rintro ⟨prepared, original, isEntry, isStatic, ⟨none, -⟩ | ⟨takes, unused, -⟩⟩
      · exact ⟨original, isEntry, isStatic, .inl none⟩
      · exact ⟨original, isEntry, isStatic, .inr ⟨takes, unused⟩⟩
    · rintro ⟨original, isEntry, isStatic, none | ⟨takes, unused⟩⟩
      · exact ⟨_, original, isEntry, isStatic, .inl ⟨none, rfl⟩⟩
      · exact ⟨_, original, isEntry, isStatic, .inr ⟨takes, unused, rfl⟩⟩
  · intro prepared chosen
    refine ⟨withoutArguments_idem chosen, ?_⟩
    obtain ⟨original, isEntry, isStatic, ⟨none, rfl⟩ | ⟨takes, unused, rfl⟩⟩ :=
      withoutArguments_eq_ok_iff.1 chosen
    · refine ⟨original, original, isEntry, isStatic, none, rfl, fun id => ?_, fun _ => rfl,
        fun some => absurd none some⟩
      split
      · next same => rw [same, isEntry]
      · rfl
    · have strips := original.strips_withoutArguments
      refine ⟨original, original.withoutArguments, isEntry,
        Method.isStatic_withoutArguments.trans isStatic, Method.params_withoutArguments, rfl,
        fun id => ?_, fun none => ?_,
        fun _ => ⟨takes, strips, fun _ => strips.not_copies, strips.unused_iff unused⟩⟩
      · simp only [method?, SortedMap.get?_insert, eq_comm]
      · rw [none] at takes
        cases takes

/-- A method that copies its argument vector into two locals. -/
def Method.copyingTwice (instrs : List Instr) : Method where
  className := "Main"
  name := "main"
  isStatic := true
  params := [.array (.ref "String")]
  returnType := .void
  locals := [⟨"a", .array (.ref "String")⟩, ⟨"b", .array (.ref "String")⟩, ⟨"n", .int⟩]
  entry := ⟨0⟩
  blocks := [⟨⟨0⟩, .identity "a" (.param 0) :: .identity "b" (.param 0) :: instrs, []⟩]
  plan := none

/-- A program whose entry copies its argument vector into two locals. -/
def copyingTwice (instrs : List Instr) : Program where
  classes := []
  methods := .ofList [(.plain "Main" "main", Method.copyingTwice instrs)]
  entry := .plain "Main" "main"

/-- A method that copies the vector twice and returns is stripped. -/
theorem withoutArguments_strips_returning : ∃ prepared left,
    (copyingTwice [.ret none]).withoutArguments = .ok prepared ∧
      prepared.method? prepared.entry = some left ∧
      (Method.copyingTwice [.ret none]).Strips left ∧
      ∀ name, (Method.copyingTwice [.ret none]).Copies name →
        ∀ instr ∈ left.instrs, ¬ instr.Mentions name := by
  obtain ⟨prepared, chosen⟩ : ∃ prepared,
      (copyingTwice [.ret none]).withoutArguments = .ok prepared := ⟨_, rfl⟩
  obtain ⟨-, original, left, isEntry, -, -, same, methods, -, stripped⟩ :=
    withoutArguments_strips.2 prepared chosen
  cases isEntry
  obtain ⟨-, strips, -, unused⟩ := stripped (by decide)
  have lists {instr : Instr} : instr ∈ (Method.copyingTwice [.ret none]).instrs ↔
      instr = .identity "a" (.param 0) ∨ instr = .identity "b" (.param 0) ∨ instr = .ret none := by
    simp [Method.instrs, Method.copyingTwice]
  refine ⟨prepared, left, chosen, ?_, strips, unused.2 ⟨?_, ?_⟩⟩
  · rw [methods, same, if_pos rfl]
  · intro name _ _ instr member mentions
    obtain rfl | rfl | rfl := lists.1 member
    · rw [Instr.mentions_identity.1 mentions]
      rfl
    · rw [Instr.mentions_identity.1 mentions]
      rfl
    · simp [Instr.mentions_iff, Instr.uses, Instr.defines?] at mentions
  · intro name _ source member
    obtain same | same | same := lists.1 member <;> cases same <;> rfl

/-- A local that got the vector before the last one did may still be read, though it has lost its
value. -/
theorem not_unused_measuring : ∃ prepared left,
    (copyingTwice [.assign (.var "n") (.arrayLength "a"), .ret none]).withoutArguments =
        .ok prepared ∧
      prepared.method? prepared.entry = some left ∧
      (Method.copyingTwice [.assign (.var "n") (.arrayLength "a"), .ret none]).Copies "a" ∧
      ∃ instr ∈ left.instrs, instr.Mentions "a" := by
  refine ⟨_, _, rfl, rfl, by decide, .assign (.var "n") (.arrayLength "a"), by decide, ?_⟩
  simp [Instr.mentions_iff, Instr.uses, Expr.locals]

end Program

end GotoFree
