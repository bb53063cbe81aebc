import GotoFree.Lowering.Call
import GotoFree.Proofs.Graph

/-!
# What methods refer to

A call site refers to the implementations that its call may run (`Program.implementations`), and a
method refers to those of the call sites in the blocks that control reaches from its entry
(`Program.Refers`). The table of a virtual call lists its implementations
(`Job.mem_keys_dispatchTable`).
-/

namespace GotoFree

open Relation

/-! ## Call sites -/

/-- The call that an expression makes. -/
def Expr.site? : Expr → Option Call
  | .call site => some site
  | .use _ | .binary .. | .unary .. | .fieldRead .. | .arrayRead .. | .arrayLength _ | .new _
  | .newArray .. | .nondet | .cast .. | .unmodelled .. => none

/-- The call that an instruction makes. -/
def Instr.site? : Instr → Option Call
  | .assign _ value => value.site?
  | .branch condition => condition.site?
  | .call site => some site
  | .identity .. | .goto | .ret _ | .nop _ | .throw _ | .aliased .. => none

/-- A block makes a call. -/
def Block.Calls (block : Block) (site : Call) : Prop :=
  ∃ instr ∈ block.instrs, instr.site? = some site

namespace Method

variable {method : Method}

/-- Control may go from a block to one of its successors. -/
def Follows (method : Method) (id target : BlockId) : Prop :=
  ∃ block, method.block? id = some block ∧ target ∈ block.succs

/-- Control may come to a block. -/
def Reaches (method : Method) (id : BlockId) : Prop :=
  ReflTransGen method.Follows method.entry id

/-- A block that control may come to makes a call. -/
def Calls (method : Method) (site : Call) : Prop :=
  ∃ id block, method.Reaches id ∧ method.block? id = some block ∧ block.Calls site

/-- The graph of a method has the blocks that control may come to. -/
theorem block?_eq_some_iff {graph : BlockGraph}
    (built : BlockGraph.ofBlocks method.entry method.blocks = .ok graph) {id : BlockId}
    {block : Block} :
    graph.block? id = some block ↔ method.Reaches id ∧ method.block? id = some block := by
  have checked := BlockGraph.checked_ofBlocks built
  have entry : graph.entry = method.entry := by
    obtain ⟨all, rfl, -⟩ := BlockGraph.of_ofBlocks built
    rfl
  have listed {id : BlockId} {block : Block} (found : graph.block? id = some block) :
      method.block? id = some block := (BlockGraph.block_of_ofBlocks built found).2.1
  have next {id : BlockId} {block : Block} (found : graph.block? id = some block) :
      graph.next id = block.succs := by
    rw [BlockGraph.next, BlockGraph.outEdges_of_block? found,
      Block.map_snd_outEdges (checked.fits found)]
  have follows {id target : BlockId} (edge : target ∈ graph.next id) :
      method.Follows id target := by
    have known : id ∈ graph.ids := by
      by_contra unknown
      simp [BlockGraph.next, BlockGraph.outEdges_of_unknown unknown] at edge
    obtain ⟨block, found⟩ := BlockGraph.mem_ids_iff.1 known
    exact ⟨block, listed found, next found ▸ edge⟩
  constructor
  · intro found
    have path := checked.reached (BlockGraph.mem_ids_iff.2 ⟨block, found⟩)
    rw [entry] at path
    exact ⟨path.lift (fun id => id) fun _ _ edge => follows edge, listed found⟩
  · rintro ⟨reaches, here⟩
    have known : id ∈ graph.ids := by
      induction reaches generalizing block with
      | refl => exact entry ▸ checked.entry_mem
      | tail _ follows ih =>
          obtain ⟨source, isSource, edge⟩ := follows
          obtain ⟨found, isFound⟩ := BlockGraph.mem_ids_iff.1 (ih isSource)
          cases isSource.symm.trans (listed isFound)
          exact checked.target_mem (next isFound ▸ edge)
    obtain ⟨found, isFound⟩ := BlockGraph.mem_ids_iff.1 known
    cases here.symm.trans (listed isFound)
    exact isFound

end Method

namespace Program

variable {program : Program} {className name : String} {arity : Nat} {id : MethodId}

/-- The implementations that a call may run: a static call that of its name and arity, a special
call the one found from its class upwards, or else that of its name and arity, and a virtual call
those for the classes of its receiver. -/
def implementations (program : Program) (site : Call) : List MethodId :=
  let callee := site.callee
  let arity := callee.arity.toNat
  let direct := program.methodTaking callee.className callee.name arity
  match site.kind with
  | .static => direct.toList
  | .special => (program.resolve callee.className callee.name arity <|> direct).toList
  | .virtual => site.possibleReceivers.toList.filterMap fun className =>
      program.resolve className callee.name arity

/-- A method refers to another one: a call in a block that control may come to may run it. -/
def Refers (program : Program) (id callee : MethodId) : Prop :=
  ∃ method, program.method? id = some method ∧
    ∃ site, method.Calls site ∧ callee ∈ program.implementations site

/-- A method that takes some arguments has as many parameters. -/
theorem params_of_methodTaking (found : program.methodTaking className name arity = some id) :
    ∃ method, program.method? id = some method ∧ method.params.length = arity := by
  have takes := List.find?_some found
  obtain ⟨method, isMethod, same⟩ := (Option.any_eq_true ..).1 takes
  exact ⟨method, isMethod, of_decide_eq_true same⟩

/-- A method that is found from a class upwards has a receiver. -/
theorem instance_of_resolve (found : program.resolve className name arity = some id) :
    ∃ method, program.method? id = some method ∧ method.params.length = arity ∧
      method.isStatic = false := by
  obtain ⟨ancestor, -, found⟩ := List.exists_of_findSome?_eq_some found
  obtain ⟨taking, isInstance⟩ := Option.filter_eq_some_iff.1 found
  obtain ⟨method, isMethod, params⟩ := params_of_methodTaking taking
  refine ⟨method, isMethod, params, ?_⟩
  simpa [isMethod] using isInstance

/-- An implementation takes as many arguments as the call says. -/
theorem params_of_implementations {site : Call} (member : id ∈ program.implementations site) :
    ∃ method, program.method? id = some method ∧
      method.params.length = site.callee.arity.toNat := by
  unfold implementations at member
  dsimp only at member
  have resolved {className name : String} {arity : Nat}
      (found : program.resolve className name arity = some id) :
      ∃ method, program.method? id = some method ∧ method.params.length = arity := by
    obtain ⟨method, isMethod, params, -⟩ := instance_of_resolve found
    exact ⟨method, isMethod, params⟩
  split at member
  · exact params_of_methodTaking (Option.mem_toList.1 member)
  · rw [Option.mem_toList, Option.orElse_eq_orElse, Option.orElse_eq_or] at member
    rcases Option.or_eq_some_iff.1 member with found | ⟨-, found⟩
    · exact resolved found
    · exact params_of_methodTaking found
  · obtain ⟨receiver, -, found⟩ := List.mem_filterMap.1 member
    exact resolved found

end Program

/-! ## Tables of virtual calls -/

namespace Job

variable {job : Job} {site : Call} {instr : Instr} {table : DispatchTable}

/-- A table lists the implementations for some receivers, each with the receivers that select it. -/
structure ListsReceivers (job : Job) (site : Call) (receivers : List String)
    (table : DispatchTable) : Prop where
  resolves : ∀ className ∈ receivers, ∃ id,
    job.setting.program.resolve className site.callee.name site.callee.arity.toNat = some id
  selects : ∀ id className, (∃ classes, table.get? id = some classes ∧ className ∈ classes) ↔
    className ∈ receivers ∧
      job.setting.program.resolve className site.callee.name site.callee.arity.toNat = some id
  inhabited : ∀ id classes, table.get? id = some classes → ∃ className, className ∈ classes

theorem ListsReceivers.empty : job.ListsReceivers site [] .empty := by
  constructor <;> simp

/-- One more receiver is listed with its implementation. -/
theorem ListsReceivers.snoc {receivers : List String}
    (lists : job.ListsReceivers site receivers table)
    {className : String} {id : MethodId}
    (found : job.setting.program.resolve className site.callee.name site.callee.arity.toNat =
      some id) :
    job.ListsReceivers site (receivers ++ [className])
      (table.insert id (((table.get? id).getD .empty).insert className)) := by
  constructor
  · intro other member
    rcases List.mem_append.1 member with member | member
    · exact lists.resolves other member
    · exact List.mem_singleton.1 member ▸ ⟨id, found⟩
  · intro other receiver
    have last : receiver = className ∧ job.setting.program.resolve receiver site.callee.name
        site.callee.arity.toNat = some other ↔ id = other ∧ receiver = className := by
      constructor
      · rintro ⟨rfl, resolves⟩
        exact ⟨Option.some.inj (found.symm.trans resolves), rfl⟩
      · rintro ⟨rfl, rfl⟩
        exact ⟨rfl, found⟩
    rw [SortedMap.get?_insert, List.mem_append, List.mem_singleton, or_and_right,
      ← lists.selects other receiver, last]
    split
    · next same =>
      subst same
      cases table.get? id <;> simp [or_comm]
    · next differ => simp [differ]
  · intro other classes isEntry
    rw [SortedMap.get?_insert] at isEntry
    split at isEntry
    · cases isEntry
      exact ⟨className, by simp⟩
    · exact lists.inhabited other classes isEntry

/-- The classes of an entry of a dispatch table are those receivers that resolve to it. -/
theorem ListsReceivers.mem_classes_iff {receivers : List String}
    (lists : job.ListsReceivers site receivers table) {entry : MethodId × SortedSet String}
    (isEntry : entry ∈ table.entries) {className : String} :
    className ∈ entry.2 ↔ className ∈ receivers ∧
      job.setting.program.resolve className site.callee.name site.callee.arity.toNat =
        some entry.1 := by
  have found : table.get? entry.1 = some entry.2 := SortedMap.get?_eq_some_iff.2 isEntry
  rw [← lists.selects, found]
  simp

/-- The table of a virtual call lists its receivers. -/
theorem listsReceivers_dispatchTable (made : job.dispatchTable site instr = .ok table) :
    job.ListsReceivers site site.possibleReceivers.toList table := by
  unfold dispatchTable at made
  split at made
  · cases made
  · dsimp only at made
    have start : job.ListsReceivers site [] .empty := .empty
    rw [← List.nil_append site.possibleReceivers.toList]
    generalize site.possibleReceivers.toList = receivers at made ⊢
    generalize ([] : List String) = front at start ⊢
    generalize (SortedMap.empty : DispatchTable) = met at made start
    induction receivers generalizing front met with
    | nil =>
        cases made
        rwa [List.append_nil]
    | cons className rest ih =>
        obtain ⟨next, here, later⟩ := bind_eq_ok_iff.1 made
        dsimp only at here
        split at here
        · next callee found =>
          cases here
          have whole := ih _ _ later (start.snoc found)
          rwa [List.append_assoc] at whole
        · cases here

/-- The table of a virtual call lists its implementations. -/
theorem mem_keys_dispatchTable (made : job.dispatchTable site instr = .ok table)
    (isVirtual : site.kind = .virtual) {id : MethodId} :
    id ∈ table.keys ↔ id ∈ job.setting.program.implementations site := by
  have lists := listsReceivers_dispatchTable made
  have receivers : id ∈ job.setting.program.implementations site ↔
      ∃ className ∈ site.possibleReceivers.toList,
        job.setting.program.resolve className site.callee.name site.callee.arity.toNat =
          some id := by
    simp [Program.implementations, isVirtual]
  simp only [receivers, ← lists.selects, SortedMap.mem_keys_iff]
  constructor
  · rintro ⟨classes, found⟩
    obtain ⟨className, member⟩ := lists.inhabited id classes found
    exact ⟨className, classes, found, member⟩
  · rintro ⟨className, classes, found, -⟩
    exact ⟨classes, found⟩

end Job

end GotoFree
