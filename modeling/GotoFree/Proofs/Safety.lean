import GotoFree.Lowering
import GotoFree.Proofs.CallSites
import GotoFree.Proofs.Marking

/-!
# Lowering meets no defect

No step of lowering relies in vain on an earlier one: a program is lowered or rejected
(`Program.lower_ok_or_rejected`). Each kind of defect is excluded where it could arise - slots by
the widths of the layout, gates by what leads to the elements of a sequence, and those of the
control flow by the structure of the graph.
-/

namespace GotoFree

open LoopForest

namespace Lower

variable {α β : Type}

/-- A step that meets no defect, whatever was lowered before it. -/
def Safe (step : Lower α) : Prop := ∀ progress defect, step progress ≠ .error (.defect defect)

namespace Safe

theorem pure (value : α) : Safe (pure value : Lower α) := by
  intro progress defect
  exact nofun

/-- The rest of a step may rely on what its first part has answered. -/
theorem bind_of {first : Lower α} {rest : α → Lower β} (safe : Safe first)
    (later : ∀ progress value after, first progress = .ok (value, after) → Safe (rest value)) :
    Safe (first >>= rest) := by
  intro progress defect fails
  change (first progress >>= fun answer => rest answer.1 answer.2) = _ at fails
  cases made : first progress with
  | error failure =>
      rw [made, error_bind, Except.error.injEq] at fails
      exact safe progress defect (fails ▸ made)
  | ok answer =>
      rw [made, ok_bind] at fails
      exact later progress answer.1 answer.2 made answer.2 defect fails

/-- Two steps in a row are safe if both are. -/
theorem bind {first : Lower α} {rest : α → Lower β} (safe : Safe first)
    (later : ∀ value, Safe (rest value)) : Safe (first >>= rest) :=
  safe.bind_of fun _ value _ _ => later value

theorem get : Safe (get : Lower Progress) := fun _ _ => nofun

theorem set (progress : Progress) : Safe (set progress : Lower PUnit) := fun _ _ => nofun

theorem modify (change : Progress → Progress) : Safe (modify change : Lower PUnit) :=
  fun _ _ => nofun

theorem reject (reason : Rejection) : Safe (reject reason : Lower α) := fun _ _ => nofun

theorem check (result : Except Rejection α) : Safe (check result) := by
  cases result with
  | ok value => exact pure value
  | error reason => exact reject reason

/-- A check answers only what it has found. -/
theorem check_bind {result : Except Rejection α} {rest : α → Lower β}
    (later : ∀ value, result = .ok value → Safe (rest value)) :
    Safe (Lower.check result >>= rest) := by
  cases result with
  | ok value => exact later value rfl
  | error reason => exact reject reason

/-- Steps for the values of a list answer as many values. -/
theorem mapM_bind {γ : Type} {step : α → Lower β} {list : List α} {rest : List β → Lower γ}
    (each : ∀ a ∈ list, Safe (step a))
    (later : ∀ values, values.length = list.length → Safe (rest values)) :
    Safe (list.mapM step >>= rest) := by
  induction list generalizing rest with
  | nil => exact later [] rfl
  | cons first others ih =>
      simp only [List.mapM_cons, bind_assoc, pure_bind]
      refine (each first (by simp)).bind fun value => ?_
      refine ih (fun a member => each a (List.mem_cons_of_mem _ member)) fun values same => ?_
      exact later (value :: values) (by simp [same])

/-- Steps for the values of a list are safe if each of them is. -/
theorem mapM {step : α → Lower β} {list : List α} (each : ∀ a ∈ list, Safe (step a)) :
    Safe (list.mapM step) := by
  rw [← bind_pure (list.mapM step)]
  exact mapM_bind each fun values _ => pure values

theorem forM {step : α → Lower PUnit} {list : List α} (each : ∀ a ∈ list, Safe (step a)) :
    Safe (list.forM step) := by
  induction list with
  | nil => exact pure _
  | cons first rest ih =>
      exact (each first (by simp)).bind fun _ =>
        ih fun a member => each a (List.mem_cons_of_mem _ member)

theorem request (id : MethodId) (method : Method) : Safe (request id method) :=
  fun _ _ => nofun

theorem enter (spot : Spot) : Safe (enter spot) := fun _ _ => nofun

theorem fresh (stem : String) : Safe (fresh stem) := fun _ _ => nofun

theorem flag (coord : Coord) : Safe (flag coord) := fun _ _ => nofun

theorem addHelper (function : Target.Function) : Safe (addHelper function) :=
  fun _ _ => nofun

theorem warn (warning : String) : Safe (warn warning) := fun _ _ => nofun

end Safe

end Lower

/-! ## Slots -/

namespace Layout

/-- The rows of a class hold its tag and its fields. -/
def Roomy (layout : Layout) : Prop :=
  ∀ className fields width, layout.fields.get? className = some fields →
    layout.width? className = some width → fields.length < width

/-- A maximum is above each number of its list. -/
theorem le_foldl_max {list : List Nat} {start number : Nat}
    (among : number ∈ list ∨ number ≤ start) : number ≤ list.foldl max start := by
  induction list generalizing start with
  | nil => simpa using among
  | cons first rest ih =>
      refine ih ?_
      rcases among with member | below
      · rcases List.mem_cons.1 member with rfl | member
        · exact .inr (Nat.le_max_right _ _)
        · exact .inl member
      · exact .inr (Nat.le_trans below (Nat.le_max_left _ _))

/-- A class is no wider than its family. -/
theorem ownWidth_le_familyWidth {families : List (SortedSet String)}
    {fields : SortedMap String (List StoredField)} {className : String} :
    ownWidth fields className ≤ familyWidth families fields className := by
  have member : className ∈
      (families.find? (className ∈ ·)).getD (SortedSet.singleton className) := by
    cases found : families.find? (className ∈ ·) with
    | none => simp
    | some family => simpa using List.find?_some found
  exact le_foldl_max (.inl (List.mem_map_of_mem (SortedSet.mem_toList.2 member)))

/-- The rows of a class are as wide as the class needs. -/
theorem ownWidth_le_of_ofProgram {program : Program} {layout : Layout}
    (made : ofProgram program = .ok layout) {className : String} {width : Nat}
    (wide : layout.width? className = some width) : ownWidth layout.fields className ≤ width := by
  obtain ⟨listed, -, made⟩ := bind_eq_ok_iff.1 made
  cases made
  have distinct : ((program.storedClasses.toList.map fun className =>
      (className, familyWidth (families program) (.ofList listed) className)).map
        Prod.fst).Nodup := by
    rw [List.map_map]
    exact (List.map_id _).symm ▸ program.storedClasses.nodup
  obtain ⟨other, -, same⟩ := List.mem_map.1 ((SortedMap.get?_ofList distinct).1 wide)
  cases same
  exact ownWidth_le_familyWidth

/-- The layout of a program has room for the fields of every class. -/
theorem roomy_ofProgram {program : Program} {layout : Layout}
    (made : ofProgram program = .ok layout) : layout.Roomy := by
  intro className fields width stored wide
  have enough := ownWidth_le_of_ofProgram made wide
  rw [ownWidth, stored, Option.getD_some] at enough
  exact enough

/-- The layout of a program has room for a tag in the rows of every class. -/
theorem width_pos_of_ofProgram {program : Program} {layout : Layout}
    (made : ofProgram program = .ok layout) {className : String} {width : Nat}
    (wide : layout.width? className = some width) : 0 < width :=
  Nat.lt_of_lt_of_le (Nat.succ_pos _) (ownWidth_le_of_ofProgram made wide)

/-- The slot of a field lies in the rows of each class that has the field. -/
theorem slot_lt_of_place {layout : Layout} (roomy : layout.Roomy) {field : FieldRef}
    {className : String} {place : FieldSlot} (found : layout.place? field className = some place) :
    place.slot < place.width := by
  simp only [place?, slotFrom?, Option.bind_eq_bind, Option.bind_eq_some_iff, Option.pure_def,
    Option.some.injEq] at found
  obtain ⟨slot, ⟨fields, stored, index, search, rfl⟩, width, wide, rfl⟩ := found
  obtain ⟨owner, -, position⟩ := List.exists_of_findSome?_eq_some search
  have bound := (List.findIdx?_eq_some_iff_getElem.1 position).1
  have enough := roomy className fields width stored wide
  show index + 1 < width
  omega

/-- The slot of a common place is inside the width of the family. -/
theorem slot_lt_of_commonPlace {layout : Layout} (roomy : layout.Roomy) {field : FieldRef}
    {possibleTypes : SortedSet String} {place : FieldSlot}
    (found : layout.commonPlace field possibleTypes = .ok place) : place.slot < place.width := by
  obtain ⟨places, listed, chosen⟩ := bind_eq_ok_iff.1 found
  cases places with
  | nil => cases chosen
  | cons first rest =>
      obtain ⟨className, -, isPlace⟩ :=
        exists_of_mem_right (mapM_eq_ok_iff.1 listed) (List.mem_cons_self (a := first))
      dsimp only at chosen
      split at chosen
      · cases chosen
        split at isPlace
        · next place stored =>
          cases isPlace
          exact slot_lt_of_place roomy stored
        · cases isPlace
      · cases chosen

end Layout

/-! ## Instructions -/

namespace Job

open Lower

variable {job : Job} {scope : Scope} {instr : Instr}

/-- An access to a field meets no defect. -/
theorem safe_openField {base : String} {field : FieldRef} {possibleTypes : SortedSet String} :
    Safe (job.openField scope base field possibleTypes instr) := by
  unfold openField
  refine (Safe.check _).bind fun place => (Safe.check _).bind fun binding => ?_
  cases binding with
  | const => exact (Safe.fresh _).bind fun cell => .pure _
  | mutable => exact (Safe.fresh _).bind fun object => (Safe.fresh _).bind fun cell => .pure _

/-- A write stays inside of the object, since the slot of a field lies in the rows of its class. -/
theorem safe_write {place : FieldSlot} (inside : place.slot < place.width) {base : Target.Expr}
    {cell : String} {owner : Owner} {value : Target.Expr} :
    job.setting.model.write ⟨base, place.slot, place.width, cell⟩ owner value ≠
      .error .slotOutsideObject := by
  unfold ObjectModel.write
  cases job.setting.model with
  | mutable => exact nofun
  | functional =>
      dsimp only
      split
      · exact nofun
      · split
        · omega
        · exact nofun

/-- The slot of an access is inside the object. -/
theorem slotOf_lt (roomy : job.setting.layout.Roomy) {field : FieldRef}
    {possibleTypes : SortedSet String} {place : FieldSlot}
    (found : job.slotOf field possibleTypes instr = .ok place) : place.slot < place.width := by
  unfold slotOf at found
  split at found
  · next other stored =>
    cases found
    exact Layout.slot_lt_of_commonPlace roomy stored
  · cases found

/-- A store into a field meets no defect. -/
theorem safe_storeField (roomy : job.setting.layout.Roomy) {base : String} {field : FieldRef}
    {possibleTypes : SortedSet String} {value : Target.Expr} :
    Safe (job.storeField scope base field possibleTypes value instr) := by
  unfold storeField openField
  simp only [bind_assoc]
  refine Safe.check_bind fun place found => (Safe.check _).bind fun binding => ?_
  have inside := slotOf_lt roomy found
  have written {base : Target.Expr} {cell : String} {owner : Owner} :=
    @safe_write job place inside base cell owner value
  cases binding with
  | const =>
      simp only [bind_assoc, pure_bind]
      refine (Safe.fresh _).bind fun cell => ?_
      split
      · exact .pure _
      · next fails => exact absurd fails written
      · exact .reject _
  | mutable =>
      simp only [bind_assoc, pure_bind]
      refine (Safe.fresh _).bind fun object => (Safe.fresh _).bind fun cell => ?_
      split
      · exact .pure _
      · next fails => exact absurd fails written
      · exact .reject _

/-- A read of a field meets no defect. -/
theorem safe_fieldValue {base : String} {field : FieldRef} {possibleTypes : SortedSet String} :
    Safe (job.fieldValue scope base field possibleTypes instr) :=
  safe_openField.bind fun _ => .pure _

/-- Asking for a callee meets no defect. -/
theorem safe_requestCallee {callee : MethodId} : Safe (job.requestCallee callee) := by
  unfold requestCallee
  split
  · exact .request _ _
  · exact .reject _

/-- There is a test for one of several values, if there are any. -/
theorem anyOf?_ne_none {value : Target.Expr} {numbers : List Int} (inhabited : numbers ≠ []) :
    value.anyOf? numbers ≠ none := by
  cases numbers with
  | nil => exact absurd rfl inhabited
  | cons first rest => exact nofun

/-- An arm of a dispatch function meets no defect, if it has a class. -/
theorem safe_dispatchArm {tag : Target.Expr} {args : List Target.Expr} {callee : MethodId}
    {classes : SortedSet String} (inhabited : ∃ className, className ∈ classes) :
    Safe (job.dispatchArm tag args callee classes) := by
  unfold dispatchArm
  refine Safe.mapM_bind (fun className _ => ?_) fun tags same => ?_
  · split
    · exact .pure _
    · exact .reject _
  · refine safe_requestCallee.bind fun function => ?_
    split
    · exact .pure _
    · next none =>
      refine absurd none (anyOf?_ne_none fun empty => ?_)
      obtain ⟨className, member⟩ := inhabited
      rw [empty, List.length_nil, eq_comm, List.length_eq_zero_iff] at same
      exact List.not_mem_nil (same ▸ SortedSet.mem_toList.2 member)

/-- A dispatch function meets no defect, if each of its arms has a class. -/
theorem safe_dispatch {site : Call} {table : DispatchTable}
    (inhabited : ∀ callee classes, table.get? callee = some classes →
      ∃ className, className ∈ classes) : Safe (job.dispatch site table instr) := by
  unfold dispatch
  refine (Safe.check _).bind fun width => Safe.get.bind fun progress => ?_
  refine (Safe.mapM fun entry member => safe_dispatchArm ?_).bind fun arms =>
    (Safe.addHelper _).bind fun _ => .pure _
  exact inhabited entry.1 entry.2 (SortedMap.get?_eq_some_iff.2 member)

/-- Finding the function of a call meets no defect. -/
theorem safe_calleeOf {site : Call} : Safe (job.calleeOf site instr) := by
  unfold calleeOf
  cases site.kind with
  | static =>
      dsimp only
      split
      · exact safe_requestCallee.bind fun _ => .pure _
      · exact .reject _
  | special =>
      dsimp only
      split
      · exact safe_requestCallee.bind fun _ => .pure _
      · split
        · exact (Safe.warn _).bind fun _ => .pure _
        · exact .reject _
  | virtual =>
      refine Safe.check_bind fun table made => ?_
      split
      · exact safe_requestCallee.bind fun _ => .pure _
      · exact (safe_dispatch (listsReceivers_dispatchTable made).inhabited).bind fun _ => .pure _

/-- A call meets no defect. -/
theorem safe_call {site : Call} : Safe (job.call scope site instr) := by
  unfold call
  refine safe_calleeOf.bind fun callee => ?_
  cases callee with
  | none => exact .pure _
  | some function =>
      exact (Safe.check _).bind fun operands => Safe.get.bind fun progress =>
        (Safe.check _).bind fun args => .pure _

/-- An expression meets no defect. -/
theorem safe_expr {value : Expr} : Safe (job.expr scope instr value) := by
  cases value with
  | use | unary | arrayLength | new | newArray => exact (Safe.check _).bind fun _ => .pure _
  | binary | arrayRead => exact (Safe.check _).bind fun _ => (Safe.check _).bind fun _ => .pure _
  | fieldRead => exact safe_fieldValue
  | call site =>
      refine safe_call.bind fun computed => ?_
      cases computed with
      | none => exact .reject _
      | some computed => exact .pure _
  | nondet => exact .pure _
  | cast operand type =>
      simp only [expr]
      split
      · exact (Safe.check _).bind fun _ => .pure _
      · exact .reject _
  | unmodelled => exact .reject _

/-- An assignment meets no defect. -/
theorem safe_assign (roomy : job.setting.layout.Roomy) {value : Target.Expr} {place : Place} :
    Safe (job.assign scope instr value place) := by
  cases place with
  | var => exact (Safe.check _).bind fun _ => .pure _
  | field => exact (safe_storeField roomy).bind fun _ => .pure _
  | arrayElement => exact (Safe.check _).bind fun _ => (Safe.check _).bind fun _ => .pure _

/-- Each source that a method has is among its arguments. -/
theorem exists_param {method : Method} {source : Source} (has : method.hasSource source = true) :
    ∃ param ∈ method.incoming, param.source = source := by
  cases source with
  | this =>
      refine ⟨method.paramAt .this (.ref method.className), ?_, rfl⟩
      simp only [Method.hasSource, Bool.not_eq_true'] at has
      simp [Method.incoming, has]
  | param index =>
      have bound : index.toNat < method.params.length := by simpa [Method.hasSource] using has
      refine ⟨method.paramAt (.param index) method.params[index.toNat], ?_, rfl⟩
      rw [Method.incoming, List.mem_append, List.mem_map]
      refine .inr ⟨(method.params[index.toNat], index.toNat), ?_, by simp⟩
      exact List.mem_zipIdx_iff_getElem?.2 (List.getElem?_eq_getElem bound)

theorem safe_nameOfSource {source : Source} : Safe (job.nameOfSource source instr) := by
  unfold nameOfSource
  split
  · next has =>
    split
    · exact .pure _
    · next none =>
      obtain ⟨param, member, same⟩ := exists_param has
      exact absurd (List.find?_eq_none.1 none param member) (by simp [same])
  · exact .reject _

/-- A plain instruction meets no defect. -/
theorem safe_plainInstr (roomy : job.setting.layout.Roomy) :
    Safe (job.plainInstr scope instr) := by
  cases instr with
  | assign => exact safe_expr.bind fun _ => (safe_assign roomy).bind fun _ => .pure _
  | call site =>
      refine safe_call.bind fun computed => ?_
      cases computed with
      | none => exact .pure _
      | some computed => exact .pure _
  | nop unreachable => cases unreachable <;> exact .pure _
  | aliased => exact (Safe.check _).bind fun _ => (Safe.check _).bind fun _ => .pure _
  | throw | identity | branch | goto | ret => exact .reject _

/-! ## Blocks -/

/-- A method that records something has a control cell. -/
theorem hasControlCell_of_recorded {coord : Coord} (recorded : coord ∈ job.flags.recorded) :
    job.hasControlCell = true := by
  rw [hasControlCell, Bool.not_eq_true', ← Bool.not_eq_true, SortedSet.isEmpty_iff]
  exact fun empty => empty coord recorded

/-- Recording a coordinate meets no defect. -/
theorem safe_record {coord : Coord} : Safe (job.record coord) := by
  unfold record
  split
  · exact (Safe.flag _).bind fun _ => .pure _
  · exact .pure _

/-- A gate meets no defect, if it waits for something. -/
theorem safe_gate {coords : CoordSet} (inhabited : ∃ coord, coord ∈ coords) :
    Safe (gate coords) := by
  refine Safe.mapM_bind (fun coord _ => .flag coord) fun flags same => ?_
  unfold flagTest
  split
  · exact .pure _
  · next none =>
    refine absurd none (anyOf?_ne_none fun empty => ?_)
    obtain ⟨coord, member⟩ := inhabited
    rw [empty, List.length_nil, eq_comm, List.length_eq_zero_iff] at same
    exact List.not_mem_nil (same ▸ SortedSet.mem_toList.2 member)

/-- A jump meets no defect. -/
theorem safe_jump {coord : Coord} : Safe (job.jump scope coord) := by
  refine safe_record.bind fun recording => ?_
  split
  · split
    · exact .pure _
    · exact .reject _
  · split <;> exact .pure _

/-- A return meets no defect. -/
theorem safe_ret {id : BlockId} {value : Option Operand} : Safe (job.ret scope id value) := by
  unfold ret
  cases value with
  | none => exact (Safe.pure _).bind fun _ => safe_record.bind fun _ => .pure _
  | some operand => exact (Safe.check _).bind fun _ => safe_record.bind fun _ => .pure _

/-- An instruction meets no defect. -/
theorem safe_instr (roomy : job.setting.layout.Roomy) {id : BlockId} :
    Safe (job.instr id scope instr) := by
  unfold Job.instr
  split
  · exact safe_expr.bind fun _ => .pure _
  · exact .pure _
  · exact safe_ret.bind fun _ => .pure _
  · split
    · exact .pure _
    · exact safe_nameOfSource.bind fun _ => (Safe.check _).bind fun _ => .pure _
  · exact (safe_plainInstr roomy).bind fun _ => .pure _

/-- Instructions in a row meet no defect. -/
theorem safe_instrs (roomy : job.setting.layout.Roomy) {id : BlockId} {index : Nat}
    {instrs : List Instr} : Safe (job.instrs id index scope instrs) := by
  induction instrs generalizing index scope with
  | nil => exact .pure _
  | cons first rest ih =>
      exact (Safe.enter _).bind fun _ => (safe_instr roomy).bind fun _ => ih.bind fun _ => .pure _

/-- A block meets no defect. -/
theorem safe_block (roomy : job.setting.layout.Roomy) {id : BlockId} :
    Safe (job.block scope id) := by
  unfold Job.block
  split
  · exact .reject _
  · exact (Safe.check _).bind fun _ => (safe_instrs roomy).bind fun _ => .pure _

/-! ## Trees -/

/-- A conditional return meets no defect. -/
theorem safe_returnIf {coords : CoordSet} {value : Target.Expr} :
    Safe (returnIf coords value) := by
  unfold returnIf
  split
  · exact .pure _
  · next some =>
    have inhabited : ∃ coord, coord ∈ coords := by
      simpa [SortedSet.isEmpty_iff] using some
    exact (safe_gate inhabited).bind fun _ => .pure _

/-- Running the loop around another one again meets no defect. -/
theorem safe_recurseAfter {label : Label} : Safe (job.recurseAfter scope label) := by
  unfold recurseAfter
  dsimp only
  split
  · exact .pure _
  · split
    · exact safe_returnIf
    · exact .reject _

/-- Leaving a loop meets no defect. -/
theorem safe_returnAfter {label : Label} : Safe (job.returnAfter scope label) :=
  safe_returnIf.bind fun _ => safe_returnIf.bind fun _ => .pure _

section Trees

variable {graph : BlockGraph} {forest : LoopForest} {around : Option Loop} {recorded : CoordSet}

/-- An alternative of a merge is selected by the coordinates that lead to it, and by the start of
the method if that is where the method starts. -/
theorem safe_alternativeTest (checked : graph.Checked) (entry : job.method.entry = graph.entry)
    {label : Label} {incoming : Incoming} (noted : label.notes.chooseBy = some incoming)
    {alternatives : List Tree} (incoming_iff : ∀ entry coords, incoming.get? entry = some coords ↔
      entry ∈ Tree.headsOfAll alternatives ∧ coords = .ofList (graph.inCoords entry))
    (known : ∀ id ∈ Tree.headsOfAll alternatives, id ∈ graph.ids) {head : BlockId} :
    Safe (job.alternativeTest label head) := by
  unfold alternativeTest
  simp only [noted]
  cases found : incoming.get? head with
  | none => exact .reject _
  | some coords =>
      obtain ⟨isHead, rfl⟩ := (incoming_iff head coords).1 found
      refine Safe.mapM_bind (fun coord _ => .flag coord) fun flags same => ?_
      unfold flagTest
      split
      · exact .pure _
      · next none =>
        refine absurd none (anyOf?_ne_none ?_)
        split
        · simp
        · next other =>
          -- Control reaches a block other than the entry along an edge.
          have reached := checked.reached (known head isHead)
          rcases Relation.ReflTransGen.cases_tail reached with same | ⟨source, -, step⟩
          · exact absurd (same.trans entry.symm) other
          · obtain ⟨coord, -, edge⟩ := checked.mem_next_iff.1 step
            have member : coord ∈ SortedSet.ofList (graph.inCoords head) :=
              SortedSet.mem_ofList.2 (checked.mem_inCoords_iff.2 edge)
            rintro rfl
            rw [List.length_nil, eq_comm, List.length_eq_zero_iff] at same
            exact List.not_mem_nil (same ▸ SortedSet.mem_toList.2 member)

/-- Alternatives meet no defect, if their tests and trees do not. -/
theorem safe_alternatives {label : Label} {alternatives : List Tree}
    (tests : ∀ tree ∈ alternatives, Safe (job.alternativeTest label tree.head))
    (trees : ∀ tree ∈ alternatives, ∀ scope, Safe (job.tree scope tree)) :
    Safe (job.alternatives scope label alternatives) := by
  induction alternatives with
  | nil => exact .pure _
  | cons tree rest ih =>
      unfold alternatives
      refine (tests tree (by simp)).bind fun _ => (trees tree (by simp) _).bind fun _ => ?_
      exact (ih (fun other member => tests other (List.mem_cons_of_mem _ member))
        fun other member => trees other (List.mem_cons_of_mem _ member)).bind fun _ => .pure _

/-- Elements meet no defect, if their trees do not and each gate waits for something. -/
theorem safe_elems {elems : List Tree}
    (gates : ∀ tree ∈ elems, ∀ coords, tree.notes.gateOn = some coords →
      ∃ coord, coord ∈ coords)
    (trees : ∀ tree ∈ elems, ∀ scope, Safe (job.tree scope tree)) :
    Safe (job.elems scope elems) := by
  induction elems generalizing scope with
  | nil => exact .pure _
  | cons tree rest ih =>
      have later (scope : Scope) : Safe (job.elems scope rest) :=
        ih (fun other member => gates other (List.mem_cons_of_mem _ member))
          fun other member => trees other (List.mem_cons_of_mem _ member)
      unfold Job.elems
      split
      · next coords gate =>
        exact (safe_gate (gates tree (by simp) coords gate)).bind fun _ =>
          (trees tree (by simp) _).bind fun _ => (later _).bind fun _ => .pure _
      · exact (trees tree (by simp) _).bind fun _ => (later _).bind fun _ => .pure _

/-- The gates of a marked sequence wait for something. -/
theorem inhabited_of_allGated {before : List BlockId} {elems : List Tree}
    (gated : AllGated graph forest recorded around before elems) : ∀ tree ∈ elems, ∀ coords,
      tree.notes.gateOn = some coords → ∃ coord, coord ∈ coords := by
  induction elems generalizing before with
  | nil => simp
  | cons first rest ih =>
      intro tree member
      rcases List.mem_cons.1 member with rfl | member
      · exact gated.1.inhabited
      · exact ih gated.2 tree member

/-- An arm meets no defect, if its tree does not. -/
theorem safe_arm {arm : Arm} (nested : ∀ tree, arm = .nested tree → ∀ scope,
    Safe (job.tree scope tree)) : Safe (job.arm scope arm) := by
  cases arm with
  | jump => exact safe_jump.bind fun _ => .pure _
  | nested tree => exact (nested tree rfl scope).bind fun _ => .pure _

/-- A marked tree is lowered without a defect. -/
theorem safe_tree (checked : graph.Checked) (isOf : forest.IsOf graph)
    (roomy : job.setting.layout.Roomy) (entry : job.method.entry = graph.entry) {tree : Tree}
    (fits : Fits graph forest (Noted graph forest recorded) around tree) :
    forest.Owns around → ∀ scope, Safe (job.tree scope tree) := by
  induction fits with
  | jump =>
      intro owns scope
      unfold Job.tree
      refine (safe_block roomy).bind fun body => ?_
      split
      · exact .pure _
      · exact safe_jump.bind fun _ => .pure _
  | conditional part noted direct branching edges takenArm notTakenArm takenLeaves notTakenLeaves
      takenFits notTakenFits takenIh notTakenIh =>
      intro owns scope
      unfold Job.tree
      refine (safe_block roomy).bind fun body => ?_
      split
      · exact .reject _
      · exact (safe_arm fun tree same => takenIh tree same owns).bind fun _ =>
          (safe_arm fun tree same => notTakenIh tree same owns).bind fun _ => .pure _
  | sequence part noted chain flat fits ih =>
      intro owns scope
      unfold Job.tree
      refine safe_elems (fun tree member coords gate => ?_) fun tree member => ih tree member owns
      rcases List.mem_cons.1 member with rfl | member
      · cases noted.1.symm.trans gate
      · exact inhabited_of_allGated noted.2 tree member coords gate
  | loop part noted nested head heads whole fits ih =>
      intro owns scope
      unfold Job.tree
      have inner := ih (owns_some (owns.mem_all (Loop.mem_flattenAll_of_mem nested)))
      exact (inner _).bind fun _ => (Safe.addHelper _).bind fun _ =>
        safe_recurseAfter.bind fun _ => safe_returnAfter.bind fun _ => .pure _
  | merge part noted heads several isEntry incoming_iff leaves fits ih =>
      intro owns scope
      unfold Job.tree
      have known (id : BlockId) (isHead : id ∈ Tree.headsOfAll _) : id ∈ graph.ids :=
        isOf.blocksOf_known owns (part.inside id (part.heads_mem id isHead))
      exact (safe_alternatives (fun tree _ => safe_alternativeTest checked entry noted.1
        incoming_iff known) fun tree member => ih tree member owns).bind fun _ => .pure _

end Trees

end Job

/-! ## Programs -/

namespace Lower

variable {setting : Setting} {id : MethodId} {method : Method}

/-- The structured form of a method is that of its graph, marked. -/
theorem structured_found {graph : BlockGraph}
    (built : BlockGraph.ofBlocks method.entry method.blocks = .ok graph) :
    ∃ found tree flags, graph.toStructured = .ok found ∧ found.IsOf graph ∧
      found.root.marked found.recursing = .ok (tree, flags) ∧
      IsMarkedTree graph found.forest tree flags ∧
      structured id method = (graph.warnings.forM warn >>= fun _ => pure (tree, flags)) := by
  have checked := BlockGraph.checked_ofBlocks built
  obtain ⟨found, made, -, isOf⟩ := checked.exists_toStructured
  obtain ⟨tree, flags, marked, isMarked⟩ := isOf.exists_marked checked
  refine ⟨found, tree, flags, made, isOf, marked, isMarked, ?_⟩
  simp only [structured, built, made, marked, rely]

/-- A method whose graph is built is structured and marked. -/
theorem structured_eq {graph : BlockGraph}
    (built : BlockGraph.ofBlocks method.entry method.blocks = .ok graph) :
    ∃ forest tree flags, forest.IsOf graph ∧ IsMarkedTree graph forest tree flags ∧
      structured id method = (graph.warnings.forM warn >>= fun _ => pure (tree, flags)) := by
  obtain ⟨found, tree, flags, -, isFound, -, isMarked, structures⟩ :=
    @structured_found id method graph built
  exact ⟨found.forest, tree, flags, isFound.isOf, isMarked, structures⟩

/-- What follows the structuring of a method may rely on a marked tree. -/
theorem Safe.structured_bind {α : Type} {rest : Tree × Flags → Lower α}
    (later : ∀ graph forest tree flags,
      BlockGraph.ofBlocks method.entry method.blocks = .ok graph → forest.IsOf graph →
        IsMarkedTree graph forest tree flags → Safe (rest (tree, flags))) :
    Safe (structured id method >>= rest) := by
  cases built : BlockGraph.ofBlocks method.entry method.blocks with
  | error fault =>
      refine Safe.bind_of ?_ fun progress value after made => ?_
      · simp only [structured, built]
        exact .reject _
      · simp only [structured, built] at made
        cases made
  | ok graph =>
      obtain ⟨forest, tree, flags, isOf, isMarked, same⟩ := @structured_eq id method graph built
      rw [same, bind_assoc]
      refine (Safe.forM fun warning _ => .warn warning).bind fun _ => ?_
      exact later graph forest tree flags built isOf isMarked

/-- The entry of a checked graph is that of its method. -/
theorem entry_of_built {entry : BlockId} {blocks : List Block} {graph : BlockGraph}
    (built : BlockGraph.ofBlocks entry blocks = .ok graph) : graph.entry = entry := by
  obtain ⟨all, rfl, -⟩ := BlockGraph.of_ofBlocks built
  rfl

/-- Lowering a method meets no defect. -/
theorem safe_method (roomy : setting.layout.Roomy) : Safe (Lower.method setting id method) := by
  unfold Lower.method
  refine (Safe.request _ _).bind fun function => (Safe.check _).bind fun plan => ?_
  refine Safe.structured_bind fun graph forest tree flags built isOf isMarked => ?_
  have checked := BlockGraph.checked_ofBlocks built
  refine (Safe.modify _).bind fun _ => (Safe.check _).bind fun entry => ?_
  refine Safe.bind ?_ fun body => Safe.get.bind fun progress => .pure _
  exact Job.safe_tree checked isOf roomy (entry_of_built built).symm isMarked.fits owns_none _

/-- Lowering the queue meets no defect. -/
theorem safe_queued (roomy : setting.layout.Roomy) {steps : Nat} : Safe (queued setting steps) := by
  induction steps with
  | zero => exact .pure _
  | succ steps ih =>
      refine Safe.get.bind fun progress => ?_
      split
      · exact .pure _
      · refine (Safe.set _).bind fun _ => ?_
        split
        · exact .reject _
        · exact (safe_method roomy).bind fun code => ih.bind fun _ => .pure _

/-- Lowering a program meets no defect. -/
theorem safe_program (roomy : setting.layout.Roomy) : Safe (Lower.program setting) := by
  unfold Lower.program
  dsimp only
  split
  · exact .reject _
  · exact (Safe.request _ _).bind fun name => (safe_queued roomy).bind fun codes =>
      Safe.get.bind fun progress => .pure _

end Lower

/-- Every program is lowered or rejected, with either object model and any entry: no step meets a
defect. -/
theorem Program.lower_ok_or_rejected (program : Program) (model : ObjectModel)
    (entry : Option MethodId) : (∃ lowered, program.lower model entry = .ok lowered) ∨
      ∃ reason, program.lower model entry = .error (.rejected reason) := by
  unfold Program.lower
  cases chosen :
    ({ program with entry := entry.getD program.entry } : Program).withoutArguments with
  | error reason => exact .inr ⟨reason, by simp [chosen, Except.mapError]⟩
  | ok prepared =>
      cases made : Layout.ofProgram prepared with
      | error reason => exact .inr ⟨reason, by simp [chosen, made, Except.mapError]⟩
      | ok layout =>
          have safe := @Lower.safe_program ⟨prepared, layout, model⟩ (Layout.roomy_ofProgram made)
          simp only [chosen, made, Except.mapError, ok_bind, Program.lowerWith, StateT.run']
          cases lowered : Lower.program ⟨prepared, layout, model⟩ .start with
          | ok answer => exact .inl ⟨answer.1, rfl⟩
          | error failure =>
              cases failure with
              | rejected reason => exact .inr ⟨reason, rfl⟩
              | defect defect => exact absurd lowered (safe .start defect)

end GotoFree
