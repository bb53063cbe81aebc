import GotoFree.Proofs.CallTies
import GotoFree.Proofs.Cells
import GotoFree.Proofs.ObjectModels

/-!
# Devirtualization

A virtual call with several implementations is a call of a dispatch function, which has an arm for
each implementation, with the tags of the receivers that select it, and behind the arms an assertion
that fails (`HasArms`). On an object with the tag of a receiver it runs the implementation that is
found from the class of the receiver upwards, and on any other object the assertion fails
(`Selects`). This holds for every call that is lowered (`Program.lower_devirtualizes`).
-/

namespace GotoFree

open Target (Completion Env Eval Script Stmt Stop Store Value World)
open Target.Stmt (RunsWith)
open Job (dispatchParams tagHandle)

/-! ## Reading tags -/

/-- A value is an object of some width with a tag. -/
inductive ObjectModel.Tagged (width : Nat) (tag : Int) (store : Store) : ObjectModel → Value → Prop
  | mutable {address : Nat} {fields : List Value} (wide : fields.length + 1 = width)
      (holds : store.cells[address]? = some (.int tag)) :
      Tagged width tag store .mutable (.tuple (.cell address :: fields))
  | functional {fields : List Value} (wide : fields.length + 1 = width) :
      Tagged width tag store .functional (.tuple (.int tag :: fields))

section Dispatch

variable {call : String → List Value → Eval Value} {world : World} {env : Env} {store : Store}

/-- The pattern of a dispatch function names the slot of the tag and passes over the fields. -/
theorem pattern_tagHandle {count : Nat} :
    (tagHandle (count + 1)).pattern = .tuple (some "__tag" :: List.replicate count none) := by
  have fields : (List.range count).map ((fun index => if index = 0 then some "__tag" else none) ∘
      Nat.succ) = List.replicate count none := by
    refine List.eq_replicate_iff.2 ⟨by simp, fun name member => ?_⟩
    obtain ⟨index, -, rfl⟩ := List.mem_map.1 member
    rfl
  rw [Handle.pattern, tagHandle, List.range_succ_eq_map, List.map_cons, List.map_map, fields]
  rfl

/-- The tag of an object is its first component. -/
theorem bound_tagHandle {first : Value} {fields : List Value} :
    (tagHandle (fields.length + 1)).pattern.bound (.tuple (first :: fields)) =
      pure [("__tag", first)] := by
  have passed {keep : Option String × Value → Option (String × Value)}
      (skips : ∀ value, keep (none, value) = none) :
      ((List.replicate fields.length none).zip fields).filterMap keep = [] := by
    refine List.filterMap_eq_nil_iff.2 ?_
    rintro ⟨name, value⟩ member
    obtain rfl := List.eq_of_mem_replicate (List.of_mem_zip member).1
    exact skips value
  rw [pattern_tagHandle, Target.Pattern.bound, if_pos (by simp), List.zip_cons_cons,
    List.filterMap_cons, passed fun value => rfl]
  rfl

/-- A dispatch function reads the tag of its object. -/
theorem ObjectModel.Tagged.exec_read {model : ObjectModel} {width : Nat} {tag : Int} {this : Value}
    (tagged : Tagged width tag store model this) (isThis : env.lookup "this" = some this) :
    ∃ first, Script.exec call world (model.read (tagHandle width)).1 env store =
        .ok (.falls (("__tag", first) :: env), store) ∧
      (model.read (tagHandle width)).2.eval call world (("__tag", first) :: env) store =
        .ok (.int tag, store) := by
  have opens {first : Value} {fields : List Value} (wide : fields.length + 1 = width)
      (same : this = .tuple (first :: fields)) :
      Script.exec call world [.bind (tagHandle width).pattern (.var "this")] env store =
        .ok (.falls (("__tag", first) :: env), store) := by
    subst wide same
    rw [Script.exec, Target.Expr.eval, isThis, expect_some, pure_bind, bound_tagHandle, pure_bind]
    rfl
  cases tagged with
  | mutable wide holds => exact ⟨_, opens wide rfl, eval_contentOf List.lookup_cons_self holds⟩
  | functional wide =>
      refine ⟨_, opens wide rfl, ?_⟩
      rw [read, Target.Expr.eval]
      rfl

/-! ## Arms -/

/-- An arm of a dispatch function: a method, the tags for which it is run, and its function. -/
structure TagArm where
  callee : MethodId
  tags : List Int
  function : String

namespace TagArm

/-- A statement is an arm: if the tag is one of the arm's, it returns what the arm's function
returns. -/
def Stands (tag : Target.Expr) (args : List Target.Expr) (arm : TagArm) (stmt : Stmt) : Prop :=
  ∃ test, tag.anyOf? arm.tags = some test ∧
    stmt = .onlyIf test [.ret (.call arm.function args)]

/-- The first arm for a tag is run; if there is none, control comes to what stands behind. -/
theorem execAll_arms {arms : List TagArm} {stmts rest : List Stmt} {tag : Target.Expr}
    {args : List Target.Expr} (stand : List.Forall₂ (Stands tag args) arms stmts) {number : Int}
    {values : List Value} (isTag : tag.eval call world env store = .ok (.int number, store))
    (areArgs : Target.Expr.evalAll call world env args store = .ok (values, store)) :
    Stmt.execAll call world env (stmts ++ rest) store =
      match arms.find? (number ∈ ·.tags) with
      | some arm => (call arm.function values >>= fun value => pure (.returns value)) store
      | none => Stmt.execAll call world env rest store := by
  induction stand with
  | nil => rfl
  | @cons arm _ _ _ isArm _ ih =>
      obtain ⟨test, isTest, rfl⟩ := isArm
      rw [List.cons_append, Stmt.execAll, Stmt.onlyIf, Stmt.exec, bind_assoc, bind_apply,
        eval_anyOf? isTag isTest, ok_bind, List.find?_cons]
      by_cases among : number ∈ arm.tags
      · simp only [among, decide_true, Stmt.execAll, Stmt.exec, Target.Expr.eval, bind_assoc,
          pure_bind]
        rw [bind_apply, areArgs, ok_bind]
      · simp only [among, decide_false, Stmt.execAll]
        rw [pure_bind]
        exact ih

end TagArm

/-! ## Dispatch functions -/

/-- Runs the body of a function on some arguments. -/
def Target.Function.exec (function : Target.Function) (call : String → List Value → Eval Value)
    (world : World) (args : List Value) : Eval Completion :=
  Stmt.execAll call world (function.params.zip args) function.body

/-- A function has an arm for each implementation of a virtual call, with the tags of the receivers
that select it, and then an assertion that fails. -/
structure HasArms (setting : Setting) (agenda : Agenda) (site : Call) (width : Nat)
    (arms : List TagArm) (function : Target.Function) : Prop where
  params : function.params = dispatchParams site
  body : ∃ stmts type, List.Forall₂ (TagArm.Stands (setting.model.read (tagHandle width)).2
      (function.params.map .var)) arms stmts ∧
    function.body = ((setting.model.read (tagHandle width)).1 ++
      Script.ofStmts (stmts ++ [Stmt.assertFalse, .ret (Ty.default type)])).stmts
  wide : ∀ className ∈ site.possibleReceivers, setting.layout.width? className = some width
  /-- There is one arm for each implementation. -/
  distinct : (arms.map TagArm.callee).Nodup
  implementations : ∀ id, id ∈ arms.map TagArm.callee ↔ id ∈ setting.program.implementations site
  named : ∀ arm ∈ arms, agenda.nameOf? arm.callee = some arm.function
  /-- The arms have the tags of the receivers, each arm some, and no two arms the same. -/
  tags : ∀ number, (∃ arm ∈ arms, number ∈ arm.tags) ↔
    ∃ className ∈ site.possibleReceivers, setting.layout.HasTag className number
  inhabited : ∀ arm ∈ arms, arm.tags ≠ []
  disjoint : arms.Pairwise fun one other => one.tags.Disjoint other.tags
  selected : ∀ className ∈ site.possibleReceivers, ∃ number arm,
    setting.layout.tag? className = some number ∧ arm ∈ arms ∧ (number : Int) ∈ arm.tags ∧
      setting.program.resolve className site.callee.name site.callee.arity.toNat = some arm.callee

/-- On an object of a receiver's class a function calls the function of the method that is found
from the class upwards, with the object and the arguments; on an object with another tag its
assertion fails. -/
structure Selects (setting : Setting) (agenda : Agenda) (site : Call) (width : Nat)
    (function : Target.Function) : Prop where
  receiver : ∀ className ∈ site.possibleReceivers, ∃ number callee name,
    setting.layout.tag? className = some number ∧
    setting.program.resolve className site.callee.name site.callee.arity.toNat = some callee ∧
    agenda.nameOf? callee = some name ∧
    ∀ call world store this args, setting.model.Tagged width number store this →
      args.length = site.callee.arity.toNat →
        function.exec call world (this :: args) store =
          (call name (this :: args) >>= fun value => pure (.returns value)) store
  other : ∀ number,
    (∀ className ∈ site.possibleReceivers, ¬ setting.layout.HasTag className number) →
    ∀ call world store this args, setting.model.Tagged width number store this →
      args.length = site.callee.arity.toNat →
        function.exec call world (this :: args) store = .error .failedAssertion

/-- A class has one tag only. -/
theorem Layout.HasTag.number_eq {layout : Layout} {className : String} {one two : Int}
    (first : layout.HasTag className one) (second : layout.HasTag className two) : one = two := by
  obtain ⟨position, isFirst, rfl⟩ := first
  obtain ⟨_, isSecond, rfl⟩ := second
  rw [Option.some.inj (isFirst.symm.trans isSecond)]

/-- No two classes have the same tag. -/
theorem Layout.HasTag.inj {layout : Layout} {one two : String} {number : Int}
    (first : layout.HasTag one number) (second : layout.HasTag two number) : one = two := by
  obtain ⟨position, isFirst, rfl⟩ := first
  obtain ⟨_, isSecond, same⟩ := second
  obtain rfl := Int.ofNat.inj same
  unfold tag? at isFirst isSecond
  split at isFirst
  · next known =>
    split at isSecond
    · have indices : layout.fields.keys.idxOf one = layout.fields.keys.idxOf two := by
        simp only [Option.some.injEq] at isFirst isSecond
        omega
      exact (List.idxOf_inj known).1 indices
    · cases isSecond
  · cases isFirst

namespace HasArms

variable {setting : Setting} {agenda : Agenda} {site : Call} {width : Nat} {arms : List TagArm}
  {function : Target.Function}

/-- A dispatch function runs the first arm with the tag of its object. -/
theorem exec_eq (has : HasArms setting agenda site width arms function) {number : Int}
    {this : Value} {args : List Value} (tagged : setting.model.Tagged width number store this)
    (count : args.length = site.callee.arity.toNat) :
    function.exec call world (this :: args) store =
      match arms.find? (number ∈ ·.tags) with
      | some arm => (call arm.function (this :: args) >>= fun value => pure (.returns value)) store
      | none => .error .failedAssertion := by
  obtain ⟨stmts, type, stand, body⟩ := has.body
  have isThis : (function.params.zip (this :: args)).lookup "this" = some this := by
    rw [has.params]
    exact List.lookup_cons_self
  obtain ⟨first, reads, isTag⟩ := @ObjectModel.Tagged.exec_read call world _ _ _ _ _ _ tagged isThis
  have lengths : function.params.length = (this :: args).length := by
    simp [has.params, dispatchParams, count]
  have areArgs : Target.Expr.evalAll call world
      (("__tag", first) :: function.params.zip (this :: args)) (function.params.map .var) store =
        .ok (this :: args, store) := by
    refine evalAll_vars lengths fun entry member => ?_
    rw [lookup_cons_of_ne]
    · rw [has.params] at member ⊢
      exact lookup_zip Job.nodup_dispatchParams entry member
    · rintro same
      refine @Job.tag_notMem_dispatchParams site ?_
      rw [← same, ← has.params]
      exact (List.of_mem_zip member).1
  rw [Target.Function.exec, body, Script.execAll_stmts, Script.exec_append, bind_assoc, bind_apply,
    reads, ok_bind, Target.Ended.andThen, Script.exec_ofStmts, bind_assoc, bind_apply,
    TagArm.execAll_arms stand isTag areArgs]
  cases arms.find? (number ∈ ·.tags) with
  | none => rfl
  | some arm =>
      dsimp only
      rw [bind_apply]
      cases call arm.function (this :: args) store <;> rfl

/-- A tag leads to one arm only. -/
theorem eq_of_mem_tags (has : HasArms setting agenda site width arms function) {one other : TagArm}
    (isOne : one ∈ arms) (isOther : other ∈ arms) {number : Int} (inOne : number ∈ one.tags)
    (inOther : number ∈ other.tags) : one = other :=
  List.Pairwise.forall_of_forall_of_flip
    (R := fun one other : TagArm => number ∈ one.tags → number ∈ other.tags → one = other)
    (fun _ _ _ _ => rfl)
    (has.disjoint.imp fun apart inOne inOther => absurd inOther (apart inOne))
    (has.disjoint.imp fun apart inOther inOne => absurd inOther (apart inOne)) isOne isOther
    inOne inOther

/-- A dispatch function with such arms selects by the class of the receiver. -/
theorem selects (has : HasArms setting agenda site width arms function) :
    Selects setting agenda site width function := by
  constructor
  · intro className member
    obtain ⟨number, arm, isTag, isArm, among, found⟩ := has.selected className member
    refine ⟨number, arm.callee, arm.function, isTag, found, has.named arm isArm, ?_⟩
    intro call world store this args tagged count
    rw [has.exec_eq tagged count]
    cases selected : arms.find? ((number : Int) ∈ ·.tags) with
    | none => exact absurd among (by simpa using List.find?_eq_none.1 selected arm isArm)
    | some other =>
        have inOther : (number : Int) ∈ other.tags := by simpa using List.find?_some selected
        rw [has.eq_of_mem_tags isArm (List.mem_of_find?_eq_some selected) among inOther]
  · intro number none call world store this args tagged count
    have passed : arms.find? (number ∈ ·.tags) = .none := by
      refine List.find?_eq_none.2 fun arm isArm among => ?_
      obtain ⟨className, member, isTag⟩ := (has.tags number).1 ⟨arm, isArm, by simpa using among⟩
      exact none className member isTag
    rw [has.exec_eq tagged count, passed]

end HasArms

end Dispatch

/-! ## Making dispatch functions -/

namespace Job

variable {job : Job} {later : Agenda} {number : Nat} {site : Call} {instr : Instr}

/-- All receivers of a call have the width of its dispatch function. -/
theorem width_of_receiverWidth {width : Nat} (shared : job.receiverWidth site instr = .ok width) :
    ∀ className ∈ site.possibleReceivers, job.setting.layout.width? className = some width := by
  obtain ⟨widths, found, one⟩ := bind_eq_ok_iff.1 shared
  split at one
  · next only same =>
    cases one
    intro className member
    obtain ⟨other, isWidth, wide⟩ := exists_of_mem_left (mapM_eq_ok_iff.1 found) member
    have among : other ∈ [width] := by
      rw [← same, SortedSet.mem_toList, SortedSet.mem_ofList]
      exact isWidth
    obtain rfl := List.mem_singleton.1 among
    split at wide
    · next known =>
      cases wide
      exact known
    · cases wide
  · cases one

/-- What an arm is for an entry of a table. -/
structure ArmFor (job : Job) (later : Agenda) (entry : MethodId × SortedSet String)
    (arm : TagArm) : Prop where
  callee : arm.callee = entry.1
  tags : List.Forall₂ job.setting.layout.HasTag entry.2.toList arm.tags
  named : later.nameOf? arm.callee = some arm.function

/-- The arms of a dispatch function have the tags of their classes. -/
theorem exists_arms {tag : Target.Expr} {args : List Target.Expr}
    {entries : List (MethodId × SortedSet String)} {stmts : List Stmt}
    (areArms : List.Forall₂ (fun entry => job.IsArmOf later tag args entry.1 entry.2) entries
      stmts) :
    ∃ arms, List.Forall₂ (job.ArmFor later) entries arms ∧
      List.Forall₂ (TagArm.Stands tag args) arms stmts := by
  induction areArms with
  | nil => exact ⟨[], .nil, .nil⟩
  | cons isArm _ ih =>
      obtain ⟨arms, each, stand⟩ := ih
      obtain ⟨tags, test, function, areTags, isTest, named, rfl⟩ := isArm
      exact ⟨⟨_, tags, function⟩ :: arms, .cons ⟨rfl, areTags, named⟩ each,
        .cons ⟨test, isTest, rfl⟩ stand⟩

/-- A number is a tag of an arm if it is that of one of its classes. -/
theorem ArmFor.mem_tags_iff {entry : MethodId × SortedSet String} {arm : TagArm}
    (isArm : job.ArmFor later entry arm) {number : Int} :
    number ∈ arm.tags ↔ ∃ className ∈ entry.2, job.setting.layout.HasTag className number := by
  constructor
  · intro among
    exact exists_of_mem_right isArm.tags among
  · rintro ⟨className, member, isTag⟩
    obtain ⟨other, among, isOther⟩ := exists_of_mem_left isArm.tags member
    rwa [isTag.number_eq isOther]

/-- The arms of a dispatch function have the tags of the receivers that select them. -/
theorem hasArms_of_table {table : DispatchTable} {arms : List TagArm} {width : Nat}
    {stmts : List Stmt} {type : Ty} {name : String}
    (isVirtual : site.kind = .virtual) (made : job.dispatchTable site instr = .ok table)
    (isWidth : job.receiverWidth site instr = .ok width)
    (each : List.Forall₂ (job.ArmFor later) table.entries arms)
    (stand : List.Forall₂ (TagArm.Stands (job.setting.model.read (tagHandle width)).2
      ((dispatchParams site).map .var)) arms stmts) :
    HasArms job.setting later site width arms ⟨name, dispatchParams site,
      ((job.setting.model.read (tagHandle width)).1 ++
        Script.ofStmts (stmts ++ [Stmt.assertFalse, .ret (Ty.default type)])).stmts⟩ := by
  have lists := listsReceivers_dispatchTable made
  have callees : arms.map TagArm.callee = table.keys := by
    rw [SortedMap.keys, ← List.forall₂_eq_eq_eq, List.forall₂_map_left_iff,
      List.forall₂_map_right_iff]
    exact each.flip.imp fun _ _ isArm => isArm.callee
  have tags {arm : TagArm} (isArm : arm ∈ arms) {number : Int} : number ∈ arm.tags ↔
      ∃ className ∈ site.possibleReceivers,
        job.setting.program.resolve className site.callee.name site.callee.arity.toNat =
          some arm.callee ∧ job.setting.layout.HasTag className number := by
    obtain ⟨entry, isEntry, isFor⟩ := exists_of_mem_right each isArm
    simp only [isFor.mem_tags_iff, lists.mem_classes_iff isEntry, isFor.callee,
      SortedSet.mem_toList, and_assoc]
  have distinct : (arms.map TagArm.callee).Nodup := callees ▸ table.nodup_keys
  have selected : ∀ className ∈ site.possibleReceivers, ∃ number arm,
      job.setting.layout.tag? className = some number ∧ arm ∈ arms ∧ (number : Int) ∈ arm.tags ∧
        job.setting.program.resolve className site.callee.name site.callee.arity.toNat =
          some arm.callee := by
    intro className member
    obtain ⟨id, found⟩ := lists.resolves className (SortedSet.mem_toList.2 member)
    obtain ⟨classes, isEntry, among⟩ := (lists.selects id className).2 ⟨member, found⟩
    obtain ⟨arm, isArm, isFor⟩ := exists_of_mem_left each (SortedMap.get?_eq_some_iff.1 isEntry)
    obtain ⟨_, inArm, position, isTag, rfl⟩ :=
      exists_of_mem_left isFor.tags (SortedSet.mem_toList.2 among)
    exact ⟨position, arm, isTag, isArm, inArm, isFor.callee ▸ found⟩
  refine ⟨rfl, ⟨stmts, type, stand, rfl⟩, width_of_receiverWidth isWidth, distinct, ?_, ?_, ?_, ?_,
    ?_, selected⟩
  · intro id
    rw [callees, mem_keys_dispatchTable made isVirtual]
  · intro arm isArm
    obtain ⟨entry, -, isFor⟩ := exists_of_mem_right each isArm
    exact isFor.named
  · intro number
    constructor
    · rintro ⟨arm, isArm, among⟩
      obtain ⟨className, member, -, isTag⟩ := (tags isArm).1 among
      exact ⟨className, member, isTag⟩
    · rintro ⟨className, member, isTag⟩
      obtain ⟨position, arm, isPosition, isArm, among, -⟩ := selected className member
      exact ⟨arm, isArm, isTag.number_eq ⟨position, isPosition, rfl⟩ ▸ among⟩
  · intro arm isArm none
    obtain ⟨entry, isEntry, isFor⟩ := exists_of_mem_right each isArm
    obtain ⟨className, member⟩ :=
      lists.inhabited entry.1 entry.2 (SortedMap.get?_eq_some_iff.2 isEntry)
    obtain ⟨number, among, -⟩ := exists_of_mem_left isFor.tags (SortedSet.mem_toList.2 member)
    rw [none] at among
    cases among
  · refine (List.pairwise_map.1 distinct).imp_of_mem
      fun isOne isOther differ number inOne inOther => ?_
    obtain ⟨one, -, found, isTag⟩ := (tags isOne).1 inOne
    obtain ⟨other, -, foundOther, isOtherTag⟩ := (tags isOther).1 inOther
    obtain rfl := isTag.inj isOtherTag
    exact differ (Option.some.inj (found.symm.trans foundOther))

/-- A dispatch function has an arm for each implementation. -/
theorem DispatcherOf.hasArms {table : DispatchTable} {function : Target.Function}
    (isVirtual : site.kind = .virtual) (made : job.dispatchTable site instr = .ok table)
    (isDispatcher : job.DispatcherOf later number site instr table function) :
    ∃ width arms, HasArms job.setting later site width arms function := by
  obtain ⟨width, stmts, type, isWidth, areArms, rfl⟩ := isDispatcher
  obtain ⟨arms, each, stand⟩ := exists_arms areArms
  exact ⟨width, arms, hasArms_of_table isVirtual made isWidth each stand⟩

end Job

/-! ## Programs -/

/-- Arms go on to be those of a call while methods get names. -/
theorem HasArms.keeps {setting : Setting} {agenda later : Agenda} {site : Call} {width : Nat}
    {arms : List TagArm} {function : Target.Function}
    (has : HasArms setting agenda site width arms function) (keeps : agenda.Keeps later) :
    HasArms setting later site width arms function :=
  { has with named := fun arm isArm => keeps.names _ _ (has.named arm isArm) }

/-- Every virtual call with several implementations, in a block that control may come to, of a
method that is reached, is a call of a dispatch function. This has an arm for each implementation
with the tags of the receivers that select it, and behind the arms an assertion that fails; so on an
object of the receivers' width it calls the function of the method that is found from the class of
the object upwards, or else its assertion fails. -/
theorem Program.lower_devirtualizes {program : Program} {model : ObjectModel}
    {entry : Option MethodId} {lowered : LoweredProgram}
    (lowers : program.lower model entry = .ok lowered) :
    ∃ prepared layout last,
      ({ program with entry := entry.getD program.entry } : Program).withoutArguments =
        .ok prepared ∧
      Layout.ofProgram prepared = .ok layout ∧
      Lower.program ⟨prepared, layout, model⟩ .start = .ok (lowered, last) ∧
      ∀ id, prepared.Reached id → ∃ method, prepared.method? id = some method ∧
        ∀ block listed, method.Reaches block → method.block? block = some listed →
          ∀ source ∈ listed.instrs, ∀ site, source.site? = some site → site.kind = .virtual →
            ∀ one ∈ prepared.implementations site, ∀ other ∈ prepared.implementations site,
              one ≠ other →
              ∃ dispatcher ∈ lowered.program.functions,
                (∃ function ∈ lowered.program.functions, ∃ closing, RunsWith
                  (dispatcher.name, site.operands.length) closing function.body source.isBranch) ∧
                ∃ width arms,
                  HasArms ⟨prepared, layout, model⟩ last.agenda site width arms dispatcher ∧
                    Selects ⟨prepared, layout, model⟩ last.agenda site width dispatcher := by
  obtain ⟨prepared, layout, last, chosen, isLayout, ran⟩ := lower_eq_ok_iff.1 lowers
  refine ⟨prepared, layout, last, chosen, isLayout, ran, fun id isReached => ?_⟩
  obtain ⟨job, agenda, ofSetting, rfl, isMethod, isPlan, keeps, stands⟩ :=
    Lower.stands_program ran isReached
  refine ⟨job.method, isMethod, ?_⟩
  obtain ⟨-, once, -⟩ := Method.checkedPlan_eq_ok_iff.1 isPlan
  rw [← BindingPlan.map_fst_locals] at once
  intro block listed reaches isBlock source member site isSite isVirtual one isOne other isOther
    differ
  obtain ⟨index, isSource⟩ := List.mem_iff_getElem?.1 member
  obtain ⟨scope, code, made, codeOf, isMade, function, isFunction, back, isRest, branches⟩ :=
    stands block listed reaches isBlock index source isSource
  obtain dropped | ⟨call, closing, runs, count, ⟨number, serves⟩, -⟩ :=
    codeOf.of_gives (Job.gives_reties_instr codeOf.planned once isSite)
  · cases isVirtual.symm.trans dropped.1
  obtain ⟨-, callee, -, -, only⟩ | ⟨dispatcher, table, -, rfl, isName, listed, isDispatcher⟩ :=
    serves
  · rw [ofSetting] at only
    exact absurd ((only one isOne).trans (only other isOther).symm) differ
  obtain ⟨width, arms, has⟩ := isDispatcher.hasArms isVirtual listed
  rw [ofSetting] at has
  refine ⟨dispatcher, isMade (List.mem_singleton_self _), ⟨function, isFunction, closing, ?_⟩,
    width, arms, has.keeps keeps, (has.keeps keeps).selects⟩
  rw [isName, ← count]
  exact runs back _ isRest branches

/-- The virtual call of the program that keeps a tally. -/
def tallyingCall : Call := ⟨.virtual, ⟨"A", "tally", 0⟩, some "x", [], .ofList ["A", "B"]⟩

/-- A virtual call is dispatched over both of its implementations. -/
theorem Program.lower_devirtualizes_tallying : ∃ lowered layout agenda,
    tallyingProgram.lower .mutable none = .ok lowered ∧
      ∃ dispatcher ∈ lowered.program.functions, ∃ width arms,
        HasArms ⟨tallyingProgram, layout, .mutable⟩ agenda tallyingCall width arms dispatcher ∧
          Selects ⟨tallyingProgram, layout, .mutable⟩ agenda tallyingCall width dispatcher := by
  have isOk : (tallyingProgram.lower .mutable none).isOk = true := by decide +kernel
  cases lowers : tallyingProgram.lower .mutable none with
  | error failure =>
      rw [lowers] at isOk
      cases isOk
  | ok lowered =>
      obtain ⟨prepared, layout, last, chosen, -, -, devirtualizes⟩ := lower_devirtualizes lowers
      cases chosen
      obtain ⟨method, isMethod, calls⟩ := devirtualizes _ .refl
      cases isMethod
      obtain ⟨dispatcher, isFunction, -, width, arms, has, selects⟩ :=
        calls ⟨0⟩ _ .refl rfl (.call tallyingCall) (.tail _ (.head _)) tallyingCall rfl rfl
          (.plain "A" "tally") (by decide) (.plain "B" "tally") (by decide) (by decide)
      exact ⟨lowered, layout, last.agenda, rfl, dispatcher, isFunction, width, arms, has, selects⟩

end GotoFree
