import GotoFree.Proofs.Callees
import GotoFree.Proofs.Containers
import GotoFree.Proofs.FieldSlots

/-!
# Programs listed in another order

A program may list its classes, and a method its blocks, in any order (`Program.Reordered`). What a
program says about its classes and calls does not show that order, as long as no two classes share a
name and no two instructions copy one argument. In particular its layout does not
(`Program.Reordered.ofProgram_eq`), and the order is kept out when the arguments of the entry are
taken away (`Program.Reordered.exists_withoutArguments`).
-/

namespace GotoFree

/-! ## Look-ups in reordered lists -/

section Lookup

variable {α κ ν : Type} [DecidableEq κ]

/-- The value of a key is found in any order of a list without repeated keys. -/
theorem find?_eq_of_perm {key : α → κ} {one other : List α} (distinct : (one.map key).Nodup)
    (perm : one.Perm other) (wanted : κ) :
    one.find? (fun a => key a = wanted) = other.find? fun a => key a = wanted := by
  have found_iff {list : List α} (distinct : (list.map key).Nodup) {a : α} :
      list.find? (fun a => key a = wanted) = some a ↔ a ∈ list ∧ key a = wanted := by
    constructor
    · intro found
      exact ⟨List.mem_of_find?_eq_some found, by simpa using List.find?_some found⟩
    · rintro ⟨member, rfl⟩
      cases found : list.find? (fun b => key b = key a) with
      | none => simpa using List.find?_eq_none.1 found a member
      | some b =>
          have same : key b = key a := by simpa using List.find?_some found
          rw [List.inj_on_of_nodup_map distinct (List.mem_of_find?_eq_some found) member same]
  have others : (other.map key).Nodup := (perm.map key).nodup_iff.1 distinct
  refine Option.ext fun a => ?_
  rw [found_iff distinct, found_iff others, perm.mem_iff]

/-- The value of a key that is listed once at most does not show the order of a list. -/
theorem SortedMap.get?_ofList_perm [Key κ] {one other : List (κ × ν)} (perm : one.Perm other)
    {key : κ} (once : (one.map Prod.fst).count key ≤ 1) :
    (ofList one).get? key = (ofList other).get? key := by
  have value_eq (list : List (κ × ν)) : (ofList list).get? key =
      (list.filter fun entry => entry.1 = key).getLast?.map Prod.snd := by
    rw [ofList, get?_foldl_insert, get?_empty, Option.or_none, ← List.head?_filter,
      List.filter_reverse, List.head?_reverse]
  have few : (one.filter fun entry => entry.1 = key).length ≤ 1 := by
    rw [← List.countP_eq_length_filter]
    rw [List.count, List.countP_map] at once
    exact once
  have perm := perm.filter fun entry => entry.1 = key
  rw [value_eq, value_eq]
  cases listed : one.filter fun entry => entry.1 = key with
  | nil => rw [listed] at perm; rw [List.nil_perm.1 perm]
  | cons entry rest =>
      rw [listed] at perm few
      cases rest with
      | nil => rw [List.singleton_perm.1 perm]
      | cons => simp at few

end Lookup

/-! ## Methods -/

/-- The source that an instruction copies. -/
def Instr.source? : Instr → Option Source
  | .identity _ source => some source
  | .assign .. | .branch _ | .goto | .ret _ | .call _ | .nop _ | .throw _ | .aliased .. => none

namespace Method

/-- The receiver and the parameters of a method are copied by one instruction each at most. -/
def CopiesOnce (method : Method) : Prop :=
  ((method.instrs.filterMap Instr.source?).filter method.hasSource).Nodup

instance (method : Method) : Decidable method.CopiesOnce :=
  inferInstanceAs (Decidable (List.Nodup _))

/-- A method that lists the blocks of another one in another order, and is like it in all else. -/
def Reordered (one other : Method) : Prop :=
  ∃ blocks, one.blocks.Perm blocks ∧ other = { one with blocks }

namespace Reordered

variable {one other : Method}

theorem refl (one : Method) : one.Reordered one := ⟨one.blocks, .refl _, rfl⟩

/-- Reordering works in both directions. -/
theorem symm (reordered : one.Reordered other) : other.Reordered one := by
  obtain ⟨blocks, perm, rfl⟩ := reordered
  exact ⟨one.blocks, perm.symm, rfl⟩

/-- A method in another order has the same instructions. -/
theorem instrs_perm (reordered : one.Reordered other) : one.instrs.Perm other.instrs := by
  obtain ⟨blocks, perm, rfl⟩ := reordered
  exact perm.flatMap_right Block.instrs

/-- A method in another order has the same sources. -/
theorem hasSource_eq (reordered : one.Reordered other) : one.hasSource = other.hasSource := by
  obtain ⟨blocks, perm, rfl⟩ := reordered
  funext source
  cases source <;> rfl

/-- A method in another order copies no source twice, either. -/
theorem copiesOnce (reordered : one.Reordered other) (once : one.CopiesOnce) :
    other.CopiesOnce := by
  have perm := (reordered.instrs_perm.filterMap Instr.source?).filter one.hasSource
  rw [CopiesOnce, ← reordered.hasSource_eq]
  exact perm.nodup_iff.1 once

/-- The local that a source of the method is copied into. -/
theorem get?_argumentLocals (reordered : one.Reordered other) (once : one.CopiesOnce)
    {source : Source} (own : one.hasSource source = true) :
    one.argumentLocals.get? source = other.argumentLocals.get? source := by
  refine SortedMap.get?_ofList_perm (reordered.instrs_perm.filterMap _) ?_
  have few : (one.instrs.filterMap Instr.source?).count source ≤ 1 := by
    rw [← List.count_filter own]
    exact List.nodup_iff_count_le_one.1 once source
  convert few using 2
  rw [List.map_filterMap]
  congr 1
  funext instr
  cases instr <;> rfl

/-- A method in another order takes the same arguments. -/
theorem incoming_eq (reordered : one.Reordered other) (once : one.CopiesOnce) :
    one.incoming = other.incoming := by
  have param_eq {source : Source} (own : one.hasSource source = true) (type : Ty) :
      one.paramAt source type = other.paramAt source type := by
    simp only [paramAt, reordered.get?_argumentLocals once own]
  have params : other.params = one.params ∧ other.isStatic = one.isStatic ∧
      other.className = one.className := by
    obtain ⟨blocks, perm, rfl⟩ := reordered
    exact ⟨rfl, rfl, rfl⟩
  unfold incoming
  rw [params.1, params.2.1, params.2.2]
  congr 1
  · split
    · rfl
    · next instance_ => rw [param_eq (by simpa [hasSource] using instance_)]
  · refine List.map_congr_left ?_
    rintro ⟨type, index⟩ member
    refine param_eq ?_ type
    have inside : index < one.params.length := by
      have := List.snd_lt_of_mem_zipIdx member
      simpa using this
    have small : index.toUInt64.toNat ≤ index := by
      simpa using Nat.mod_le index _
    simp only [hasSource, decide_eq_true_eq]
    omega

/-- The block of a number, if no number is listed twice. -/
theorem block?_eq (reordered : one.Reordered other)
    (distinct : (one.blocks.map Block.id).Nodup) : one.block? = other.block? := by
  obtain ⟨blocks, perm, rfl⟩ := reordered
  funext id
  exact find?_eq_of_perm distinct perm id

end Reordered

end Method

/-! ## Programs -/

namespace Program

/-- A program that lists the classes, and the blocks of each method, of another one in another
order, and is like it in all else. -/
structure Reordered (one other : Program) : Prop where
  classes : one.classes.Perm other.classes
  methods : ∀ id, Option.Rel Method.Reordered (one.method? id) (other.method? id)
  entry : one.entry = other.entry

/-- No two classes share a name, and no two instructions of a method copy one argument. -/
structure ListsOnce (program : Program) : Prop where
  classes : (program.classes.map ClassDecl.name).Nodup
  copies : ∀ id method, program.method? id = some method → method.CopiesOnce

namespace Reordered

variable {one other : Program}

/-- Reordering a program works in both directions. -/
theorem symm (reordered : one.Reordered other) : other.Reordered one where
  classes := reordered.classes.symm
  entry := reordered.entry.symm
  methods id := by
    have here := reordered.methods id
    revert here
    generalize one.method? id = first, other.method? id = second
    rintro (related | _)
    · exact .some related.symm
    · exact .none

/-- A method of the one program is one of the other, up to the order of its blocks. -/
theorem exists_method (reordered : one.Reordered other) {id : MethodId} {method : Method}
    (found : one.method? id = some method) :
    ∃ second, other.method? id = some second ∧ method.Reordered second := by
  have here := reordered.methods id
  rw [found] at here
  cases listed : other.method? id with
  | none => rw [listed] at here; cases here
  | some second =>
      rw [listed] at here
      cases here with
      | some related => exact ⟨second, rfl, related⟩

/-- A method that is missing is so in any order. -/
theorem method?_eq_none (reordered : one.Reordered other) {id : MethodId}
    (missing : one.method? id = none) : other.method? id = none := by
  cases found : other.method? id with
  | none => rfl
  | some second =>
      obtain ⟨method, here, -⟩ := reordered.symm.exists_method found
      rw [missing] at here
      cases here

/-- What does not depend on the blocks of a method is the same of both methods of a name. -/
theorem map_method? (reordered : one.Reordered other) {β : Type} {view : Method → β}
    (same : ∀ method blocks, view { method with blocks } = view method) (id : MethodId) :
    (one.method? id).map view = (other.method? id).map view := by
  cases found : one.method? id with
  | none => rw [reordered.method?_eq_none found]
  | some method =>
      obtain ⟨second, there, blocks, -, rfl⟩ := reordered.exists_method found
      rw [there, Option.map_some, Option.map_some]
      exact congrArg some (same method blocks).symm

/-- A program in another order has the same instructions. -/
theorem mem_instrs_iff (reordered : one.Reordered other) (instr : Instr) :
    instr ∈ one.instrs ↔ instr ∈ other.instrs := by
  have goes {one other : Program} (reordered : one.Reordered other)
      (member : instr ∈ one.instrs) : instr ∈ other.instrs := by
    obtain ⟨method, among, inside⟩ := List.mem_flatMap.1 member
    obtain ⟨id, found⟩ := SortedMap.mem_values_iff.1 among
    obtain ⟨second, there, related⟩ := reordered.exists_method found
    exact List.mem_flatMap.2 ⟨second, SortedMap.mem_values_iff.2 ⟨id, there⟩,
      related.instrs_perm.mem_iff.1 inside⟩
  exact ⟨goes reordered, goes reordered.symm⟩

/-- A program in another order has as many methods. -/
theorem size_methods (reordered : one.Reordered other) : one.methods.size = other.methods.size := by
  have perm : one.methods.keys.Perm other.methods.keys := by
    refine (List.perm_ext_iff_of_nodup one.methods.nodup_keys other.methods.nodup_keys).2 ?_
    intro id
    simp only [SortedMap.mem_keys_iff]
    constructor
    · rintro ⟨method, found⟩
      obtain ⟨second, there, -⟩ := reordered.exists_method found
      exact ⟨second, there⟩
    · rintro ⟨second, found⟩
      obtain ⟨method, here, -⟩ := reordered.symm.exists_method found
      exact ⟨method, here⟩
  simpa [SortedMap.keys, SortedMap.size] using perm.length_eq

/-- A program in another order lists nothing twice, either. -/
theorem listsOnce (reordered : one.Reordered other) (once : one.ListsOnce) : other.ListsOnce where
  classes := (reordered.classes.map ClassDecl.name).nodup_iff.1 once.classes
  copies id second found := by
    obtain ⟨method, here, related⟩ := reordered.symm.exists_method found
    exact related.symm.copiesOnce (once.copies id method here)

section Classes

variable (reordered : one.Reordered other) (once : one.ListsOnce)
include reordered once

/-- A class is found in any order. -/
theorem class?_eq (name : String) : one.class? name = other.class? name :=
  find?_eq_of_perm once.classes reordered.classes name

theorem superclasses_eq : one.superclasses = other.superclasses := by
  refine SortedMap.ext fun name => Option.ext fun parent => ?_
  rw [get?_superclasses once.classes, get?_superclasses (reordered.listsOnce once).classes]
  simp only [Extends, reordered.classes.mem_iff]

/-- The ancestry of a class is the same in any order. -/
theorem ancestry_eq (className : String) : one.ancestry className = other.ancestry className := by
  have climb_eq (steps : Nat) (met : List String) (name : String) :
      one.climb steps met name = other.climb steps met name := by
    induction steps generalizing met name with
    | zero => rfl
    | succ steps ih => simp only [climb, superclass?, reordered.class?_eq once, ih]
  rw [ancestry, ancestry, climb_eq, reordered.classes.length_eq]

omit once in
/-- What does not depend on blocks holds of a method in any order. -/
theorem any_method? {holds : Method → Bool}
    (same : ∀ method blocks, holds { method with blocks } = holds method) (id : MethodId) :
    (one.method? id).any holds = (other.method? id).any holds := by
  have views := congrArg (Option.any fun isSo => isSo) (reordered.map_method? same id)
  simpa only [Option.any_map, Function.comp_def] using views

omit once in
/-- A method for some arguments is found in any order. -/
theorem methodTaking_eq (className name : String) (arity : Nat) :
    one.methodTaking className name arity = other.methodTaking className name arity := by
  unfold methodTaking
  congr 1
  funext id
  exact reordered.any_method? (fun _ _ => rfl) id

/-- A call resolves alike in any order. -/
theorem resolve_eq (className name : String) (arity : Nat) :
    one.resolve className name arity = other.resolve className name arity := by
  unfold resolve
  rw [reordered.ancestry_eq once]
  congr 1
  funext ancestor
  unfold instanceMethod
  rw [reordered.methodTaking_eq]
  congr 1
  funext id
  exact reordered.any_method? (fun _ _ => rfl) id

end Classes

end Reordered

end Program

/-! ## Layouts -/

namespace Program.Reordered

variable {one other : Program} (reordered : one.Reordered other)
include reordered

/-- The points-to sets are the same in any order. -/
theorem mem_classSets_iff (set : SortedSet String) :
    set ∈ one.classSets ↔ set ∈ other.classSets := by
  simp only [classSets, List.mem_flatMap, reordered.mem_instrs_iff]

theorem linked_eq : one.Linked = other.Linked := by
  have together : Together one.classSets = Together other.classSets := by
    funext first second
    simp only [Together, reordered.mem_classSets_iff]
  rw [Linked, Linked, together]

/-- The stored classes are the same in any order. -/
theorem storedClasses_eq : one.storedClasses = other.storedClasses := by
  ext name
  simp only [storedClasses, SortedSet.mem_ofList, List.mem_append, List.mem_flatMap,
    List.mem_filterMap, reordered.mem_classSets_iff, reordered.mem_instrs_iff,
    (reordered.classes.map ClassDecl.name).mem_iff]

/-- The width of a family is the same in any order. -/
theorem familyWidth_eq (fields : SortedMap String (List StoredField)) (className : String) :
    Layout.familyWidth (Layout.families one) fields className =
      Layout.familyWidth (Layout.families other) fields className := by
  have first := Layout.isGreatest_familyWidth one ⟨fields, .empty, .empty⟩ className
  have second := Layout.isGreatest_familyWidth other ⟨fields, .empty, .empty⟩ className
  unfold Layout.widthsAround at first second
  rw [reordered.linked_eq] at first
  exact first.unique second

variable (once : one.ListsOnce)
include once

/-- The fields of a class are the same in any order. -/
theorem fieldsOf_eq : Layout.fieldsOf one = Layout.fieldsOf other := by
  funext className
  have classes : one.class? = other.class? := funext (reordered.class?_eq once)
  unfold Layout.fieldsOf
  rw [reordered.superclasses_eq once, classes]

/-- The layout of a program does not show the order of its lists. -/
theorem ofProgram_eq : Layout.ofProgram one = Layout.ofProgram other := by
  unfold Layout.ofProgram
  simp only [reordered.storedClasses_eq, reordered.fieldsOf_eq once, reordered.familyWidth_eq,
    reordered.superclasses_eq once]

end Program.Reordered

/-! ## The arguments of the entry -/

namespace Method

variable {one other : Method}

/-- A command line has the argument vector as a source. -/
theorem hasSource_argumentSource (takes : isCommandLine one.params = true) :
    one.hasSource argumentSource = true := by
  unfold isCommandLine at takes
  split at takes
  · next className params => simp [hasSource, argumentSource, params]
  · cases takes

namespace Reordered

variable (reordered : one.Reordered other) (once : one.CopiesOnce)
  (takes : isCommandLine one.params = true)
include reordered once takes

/-- The vector is unused in any order of the blocks. -/
theorem argumentUse?_eq_none (unused : one.argumentUse? = none) :
    other.argumentUse? = none := by
  unfold argumentUse? at unused ⊢
  rw [← reordered.get?_argumentLocals once (hasSource_argumentSource takes)]
  cases copied : one.argumentLocals.get? argumentSource with
  | none => rfl
  | some name =>
      rw [copied] at unused
      refine List.find?_eq_none.2 fun instr member => ?_
      exact List.find?_eq_none.1 unused instr (reordered.instrs_perm.mem_iff.2 member)

/-- Dropping the vector keeps the order. -/
theorem withoutArguments : one.withoutArguments.Reordered other.withoutArguments := by
  have copied := reordered.get?_argumentLocals once (hasSource_argumentSource takes)
  obtain ⟨blocks, perm, rfl⟩ := reordered
  unfold Method.withoutArguments
  rw [← copied]
  cases one.argumentLocals.get? argumentSource with
  | none => exact ⟨_, perm.map _, rfl⟩
  | some name => exact ⟨_, perm.map _, rfl⟩

end Reordered

/-- A method that takes no arguments copies none. -/
theorem copiesOnce_withoutArguments (isStatic : one.isStatic = true) :
    one.withoutArguments.CopiesOnce := by
  have none (source : Source) : one.withoutArguments.hasSource source = false := by
    cases source with
    | this => simp only [hasSource, isStatic_withoutArguments, isStatic, Bool.not_true]
    | param index => simp only [hasSource, params_withoutArguments, List.length_nil,
        Nat.not_lt_zero, decide_false]
  unfold CopiesOnce
  rw [List.filter_eq_nil_iff.2 fun source _ => by simp [none source]]
  exact List.nodup_nil

end Method

/-- The arguments of an entry are taken away if there are none, or if it is a command line that the
method does not use. -/
theorem Program.withoutArguments_eq_ok_iff {program prepared : Program} :
    program.withoutArguments = .ok prepared ↔
      ∃ method, program.method? program.entry = some method ∧ method.isStatic = true ∧
        ((method.params = [] ∧ prepared = program) ∨
          (isCommandLine method.params = true ∧ method.argumentUse? = none ∧
            prepared = { program with
              methods := program.methods.insert program.entry method.withoutArguments })) := by
  unfold withoutArguments
  cases found : program.method? program.entry with
  | none => simp
  | some method =>
      cases params : method.params with
      | nil =>
          have none : isCommandLine [] = false := rfl
          cases static : method.isStatic <;> simp [static, params, none, @eq_comm _ prepared]
      | cons first rest =>
          cases static : method.isStatic <;> cases takes : isCommandLine (first :: rest) <;>
            cases used : method.argumentUse? <;>
              simp [static, params, takes, used, @eq_comm _ prepared]

/-- Reordered programs are alike too when the arguments of their entries are taken away. -/
theorem Program.Reordered.exists_withoutArguments {one other prepared : Program}
    (reordered : one.Reordered other) (once : one.ListsOnce)
    (chosen : one.withoutArguments = .ok prepared) : ∃ second,
      other.withoutArguments = .ok second ∧ prepared.Reordered second ∧ prepared.ListsOnce := by
  obtain ⟨method, isEntry, isStatic, ways⟩ := withoutArguments_eq_ok_iff.1 chosen
  obtain ⟨second, there, related⟩ := reordered.exists_method isEntry
  have copies := once.copies _ method isEntry
  have alike : second.isStatic = method.isStatic ∧ second.params = method.params := by
    obtain ⟨blocks, -, rfl⟩ := related
    exact ⟨rfl, rfl⟩
  rw [reordered.entry] at there
  rcases ways with ⟨none, rfl⟩ | ⟨takes, unused, rfl⟩
  · exact ⟨other, withoutArguments_eq_ok_iff.2
      ⟨second, there, alike.1.trans isStatic, .inl ⟨alike.2.trans none, rfl⟩⟩, reordered, once⟩
  · refine ⟨_, withoutArguments_eq_ok_iff.2 ⟨second, there, alike.1.trans isStatic,
      .inr ⟨alike.2 ▸ takes, related.argumentUse?_eq_none copies takes unused, rfl⟩⟩, ?_, ?_⟩
    · refine ⟨reordered.classes, fun id => ?_, reordered.entry⟩
      simp only [method?, SortedMap.get?_insert, reordered.entry]
      split
      · exact .some (related.withoutArguments copies takes)
      · exact reordered.methods id
    · refine ⟨once.classes, fun id found isFound => ?_⟩
      simp only [method?, SortedMap.get?_insert] at isFound
      split at isFound
      · cases isFound
        exact Method.copiesOnce_withoutArguments isStatic
      · exact once.copies id found isFound

end GotoFree
