import GotoFree.Flow.Graph
import GotoFree.Proofs.Check
import GotoFree.Proofs.Walk

/-!
# What a checked graph promises

`BlockGraph.Checked` says what the steps after `BlockGraph.ofBlocks` rely on: blocks end as their
successors say, edges stay inside the graph, and every block is reached from the entry. Edges are
stated with their coordinates (`BlockGraph.HasEdge`); a coordinate has one target.
-/

namespace GotoFree

open Relation

/-- The last instruction of a block without repetition decides how the block is left. -/
theorem Block.fanOut_of_isBranching {block : Block} (branching : block.isBranching = true) :
    block.fanOut = 2 := by
  unfold isBranching at branching
  unfold fanOut
  cases last : block.last? with
  | none => simp [last] at branching
  | some instr => cases instr <;> simp_all [Instr.isBranch, Instr.fanOut]

theorem Block.fanOut_of_isReturning {block : Block} (returning : block.isReturning = true) :
    block.fanOut = 0 := by
  unfold isReturning at returning
  unfold fanOut
  cases last : block.last? with
  | none => simp [last] at returning
  | some instr => cases instr <;> simp_all [Instr.isReturn, Instr.fanOut]

/-- A block that does not branch is left in one way at most. -/
theorem Block.fanOut_le_one {block : Block} (straight : block.isBranching = false) :
    block.fanOut ≤ 1 := by
  unfold isBranching at straight
  unfold fanOut
  cases last : block.last? with
  | none => simp
  | some instr => cases instr <;> simp_all [Instr.isBranch, Instr.fanOut]

/-- The targets of a block's edges are its successors. -/
theorem Block.map_snd_outEdges {block : Block} (fits : block.succs.length = block.fanOut) :
    block.outEdges.map Prod.snd = block.succs := by
  unfold outEdges
  split
  · next branching =>
    rw [fanOut_of_isBranching branching] at fits
    match block.succs, fits with
    | [first, second], _ => rfl
  · rw [List.map_map]
    exact List.map_id _

/-- The edges of a block leave that block. -/
theorem Block.block_of_mem_outEdges {block : Block} {edge : Coord × BlockId}
    (member : edge ∈ block.outEdges) : edge.1.block = block.id := by
  unfold outEdges at member
  split at member
  · have among := (List.of_mem_zip (a := edge.1) (b := edge.2) member).1
    rcases List.mem_cons.1 among with same | among
    · simp [same]
    · simp [List.mem_singleton.1 among]
  · obtain ⟨target, _, rfl⟩ := List.mem_map.1 member
    rfl

namespace BlockGraph

/-- What the check of a list of blocks establishes of their graph. -/
structure Checked (graph : BlockGraph) : Prop where
  entry_mem : graph.entry ∈ graph.ids
  id_eq : ∀ {id block}, graph.block? id = some block → block.id = id
  fits : ∀ {id block}, graph.block? id = some block → block.succs.length = block.fanOut
  target_mem : ∀ {id target}, target ∈ graph.next id → target ∈ graph.ids
  reached : ∀ {id}, id ∈ graph.ids → ReflTransGen (Leads graph.next) graph.entry id

/-- An edge of the graph with the coordinate along which it leaves its source. -/
def HasEdge (graph : BlockGraph) (coord : Coord) (target : BlockId) : Prop :=
  (coord, target) ∈ graph.outEdges coord.block

/-- A block is known if it is found. -/
theorem mem_ids_iff {graph : BlockGraph} {id : BlockId} :
    id ∈ graph.ids ↔ ∃ block, graph.block? id = some block :=
  SortedMap.mem_keys_iff

@[simp] theorem mem_idSet {graph : BlockGraph} {id : BlockId} :
    id ∈ graph.idSet ↔ id ∈ graph.ids :=
  SortedSet.mem_ofList

/-- The edges out of a block are those of the block that is found. -/
theorem outEdges_of_block? {graph : BlockGraph} {id : BlockId} {block : Block}
    (found : graph.block? id = some block) : graph.outEdges id = block.outEdges := by
  simp [outEdges, found]

/-- No edge leaves an unknown block. -/
theorem outEdges_of_unknown {graph : BlockGraph} {id : BlockId} (unknown : id ∉ graph.ids) :
    graph.outEdges id = [] := by
  have missing : graph.block? id = none := SortedMap.get?_eq_none_iff.2 unknown
  simp [outEdges, missing]

/-- Known blocks are not missed. -/
theorem requireBlocks_ok {graph : BlockGraph} {ids : SortedSet BlockId}
    (known : ∀ id ∈ ids, id ∈ graph.ids) : graph.requireBlocks ids = .ok () := by
  unfold requireBlocks
  split
  · next id found =>
    obtain ⟨block, here⟩ := mem_ids_iff.1 (known id (List.mem_of_find?_eq_some found))
    have missing := List.find?_some found
    simp [here] at missing
  · rfl

namespace Checked

variable {graph : BlockGraph} (checked : graph.Checked)

include checked

/-- An edge among those of a block leaves that block. -/
theorem block_of_mem_outEdges {id : BlockId} {edge : Coord × BlockId}
    (member : edge ∈ graph.outEdges id) : edge.1.block = id := by
  cases found : graph.block? id with
  | none => simp [outEdges, found] at member
  | some block =>
      rw [outEdges_of_block? found] at member
      rw [Block.block_of_mem_outEdges member, checked.id_eq found]

/-- The edges out of a block are the edges that leave it. -/
theorem hasEdge_iff {coord : Coord} {id target : BlockId} :
    (coord, target) ∈ graph.outEdges id ↔ coord.block = id ∧ graph.HasEdge coord target := by
  constructor
  · intro member
    have source : coord.block = id := checked.block_of_mem_outEdges member
    exact ⟨source, by rw [HasEdge, source]; exact member⟩
  · rintro ⟨rfl, edge⟩
    exact edge

/-- A block is followed by the targets of its edges. -/
theorem mem_next_iff {id target : BlockId} :
    target ∈ graph.next id ↔ ∃ coord : Coord, coord.block = id ∧ graph.HasEdge coord target := by
  simp only [next, List.mem_map, Prod.exists, checked.hasEdge_iff]
  constructor
  · rintro ⟨coord, _, edge, rfl⟩
    exact ⟨coord, edge⟩
  · rintro ⟨coord, edge⟩
    exact ⟨coord, target, edge, rfl⟩

/-- An edge is listed at both of its ends. -/
theorem mem_inEdges_iff {coord : Coord} {source target : BlockId} :
    (coord, source) ∈ graph.inEdges target ↔ (coord, target) ∈ graph.outEdges source := by
  simp only [inEdges, List.mem_flatMap, SortedMap.mem_values_iff, List.mem_map, List.mem_filter,
    decide_eq_true_eq]
  constructor
  · rintro ⟨block, ⟨id, found⟩, ⟨_, other⟩, ⟨member, rfl⟩, ⟨⟩⟩
    rwa [checked.id_eq found, outEdges_of_block? found]
  · intro member
    cases found : graph.block? source with
    | none => simp [outEdges, found] at member
    | some block =>
        rw [outEdges_of_block? found] at member
        exact ⟨block, ⟨source, found⟩, (coord, target), ⟨member, rfl⟩, by
          rw [checked.id_eq found]⟩

theorem mem_inCoords_iff {coord : Coord} {target : BlockId} :
    coord ∈ graph.inCoords target ↔ graph.HasEdge coord target := by
  simp only [inCoords, List.mem_map, Prod.exists, checked.mem_inEdges_iff, checked.hasEdge_iff]
  constructor
  · rintro ⟨_, _, ⟨-, edge⟩, rfl⟩
    exact edge
  · exact fun edge => ⟨coord, coord.block, ⟨rfl, edge⟩, rfl⟩

omit checked in
/-- An edge leaves a block of the graph. -/
theorem source_mem {coord : Coord} {target : BlockId} (edge : graph.HasEdge coord target) :
    coord.block ∈ graph.ids := by
  by_contra unknown
  simp [HasEdge, outEdges_of_unknown unknown] at edge

/-- An edge leads to a block of the graph. -/
theorem edge_target_mem {coord : Coord} {target : BlockId} (edge : graph.HasEdge coord target) :
    target ∈ graph.ids :=
  checked.target_mem (checked.mem_next_iff.2 ⟨coord, rfl, edge⟩)

/-- A branching block has two edges, along its two arms. -/
theorem outEdges_of_isBranching {id : BlockId} (branching : graph.isBranching id = true) :
    ∃ taken notTaken, graph.outEdges id = [(⟨id, .taken⟩, taken), (⟨id, .notTaken⟩, notTaken)] := by
  cases found : graph.block? id with
  | none => simp [isBranching, found] at branching
  | some block =>
      simp only [isBranching, found, Option.any_some] at branching
      have fits := checked.fits found
      rw [Block.fanOut_of_isBranching branching] at fits
      obtain ⟨first, second, succs⟩ := List.length_eq_two.1 fits
      refine ⟨first, second, ?_⟩
      rw [outEdges_of_block? found, Block.outEdges, if_pos branching, succs, checked.id_eq found]
      rfl

/-- A block that does not branch has one edge at most, along its exit. -/
theorem outEdges_of_not_isBranching {id : BlockId} (straight : graph.isBranching id = false) :
    graph.outEdges id = [] ∨ ∃ target, graph.outEdges id = [(⟨id, .exit⟩, target)] := by
  cases found : graph.block? id with
  | none => simp [outEdges, found]
  | some block =>
      simp only [isBranching, found, Option.any_some] at straight
      have fits := checked.fits found
      have few := Block.fanOut_le_one straight
      rw [outEdges_of_block? found, Block.outEdges, if_neg (by simp [straight]),
        checked.id_eq found]
      match succs : block.succs with
      | [] => exact .inl rfl
      | [target] => exact .inr ⟨target, rfl⟩
      | first :: second :: rest =>
          rw [succs] at fits
          simp only [List.length_cons] at fits
          omega

/-- A block that does not branch is left by its exit only. -/
theorem branch_eq_exit {coord : Coord} {target : BlockId}
    (straight : graph.isBranching coord.block = false) (edge : graph.HasEdge coord target) :
    coord.branch = .exit := by
  rcases checked.outEdges_of_not_isBranching straight with edges | ⟨other, edges⟩
  · simp [HasEdge, edges] at edge
  · rw [HasEdge, edges, List.mem_singleton] at edge
    exact congrArg (fun edge => edge.1.branch) edge

/-- No edge leaves a block that returns. -/
theorem outEdges_of_isReturning {id : BlockId} (returning : graph.isReturning id = true) :
    graph.outEdges id = [] := by
  cases found : graph.block? id with
  | none => simp [outEdges, found]
  | some block =>
      simp only [isReturning, found, Option.any_some] at returning
      have fits := checked.fits found
      rw [Block.fanOut_of_isReturning returning] at fits
      have empty := List.length_eq_zero_iff.1 fits
      have straight : block.isBranching ≠ true := by
        intro branching
        have two := Block.fanOut_of_isBranching branching
        rw [Block.fanOut_of_isReturning returning] at two
        omega
      rw [outEdges_of_block? found, Block.outEdges, if_neg straight, empty]
      rfl

/-- Control leaves a block along a coordinate to one block only. -/
theorem target_unique {coord : Coord} {first second : BlockId}
    (left : graph.HasEdge coord first) (right : graph.HasEdge coord second) : first = second := by
  unfold HasEdge at left right
  cases branching : graph.isBranching coord.block with
  | true =>
      obtain ⟨taken, notTaken, edges⟩ := checked.outEdges_of_isBranching branching
      rw [edges] at left right
      simp only [List.mem_cons, Prod.mk.injEq, List.not_mem_nil, or_false] at left right
      rcases left with ⟨here, rfl⟩ | ⟨here, rfl⟩ <;> rcases right with ⟨there, rfl⟩ | ⟨there, rfl⟩
      · rfl
      · exact absurd (congrArg Coord.branch (here.symm.trans there)) (by simp)
      · exact absurd (congrArg Coord.branch (here.symm.trans there)) (by simp)
      · rfl
  | false =>
      rcases checked.outEdges_of_not_isBranching branching with edges | ⟨target, edges⟩
      · simp [edges] at left
      · rw [edges, List.mem_singleton, Prod.mk.injEq] at left right
        exact left.2.trans right.2.symm

end Checked

/-! ## The check -/

/-- A block passes if it branches, returns or throws in its last instruction only, has as many
successors as that asks for, and all of them are known. -/
theorem checkBlock_eq_ok_iff {known : List BlockId} {block : Block} :
    checkBlock known block = .ok () ↔ (∀ instr ∈ block.instrs.dropLast, instr.fanOut = 1) ∧
      block.succs.length = block.fanOut ∧ ∀ target ∈ block.succs, target ∈ known := by
  simp only [checkBlock]
  split
  · next misplaced =>
    obtain ⟨instr, among, other⟩ := List.any_eq_true.1 misplaced
    exact iff_of_false (by simp) fun passes => of_decide_eq_true other (passes.1 instr among)
  · next ends =>
    have straight : ∀ instr ∈ block.instrs.dropLast, instr.fanOut = 1 := by simpa using ends
    split
    · next differs => exact iff_of_false (by simp) fun passes => differs passes.2.1
    · next fits =>
      split
      · next target found =>
        have outside : target ∉ known := by simpa using List.find?_some found
        exact iff_of_false (by simp) fun passes =>
          outside (passes.2.2 target (List.mem_of_find?_eq_some found))
      · next none =>
        exact iff_of_true rfl ⟨straight, not_not.1 fits, by simpa using List.find?_eq_none.1 none⟩

/-- Nothing is repeated in a list in which no value stands twice, and none that was met before. -/
theorem firstRepeated_eq_none_iff {met ids : List BlockId} :
    firstRepeated met ids = none ↔ ids.Nodup ∧ ∀ id ∈ ids, id ∉ met := by
  induction ids generalizing met with
  | nil => simp [firstRepeated]
  | cons id rest ih =>
      unfold firstRepeated
      split
      · next known => simp [known]
      · next new =>
        rw [ih, List.nodup_cons, List.forall_mem_cons]
        simp only [List.mem_cons, not_or]
        constructor
        · rintro ⟨distinct, apart⟩
          exact ⟨⟨fun again => (apart id again).1 rfl, distinct⟩, new,
            fun other member => (apart other member).2⟩
        · rintro ⟨⟨once, distinct⟩, -, apart⟩
          refine ⟨distinct, fun other member => ⟨?_, apart other member⟩⟩
          rintro rfl
          exact once member

/-- The blocks of the part that is reached from the entry. -/
theorem block?_reachedPart {entry : BlockId} {all : SortedMap BlockId Block} {id : BlockId}
    {block : Block} : (reachedPart entry all).block? id = some block ↔
      all.get? id = some block ∧ id ∈ (reachedPart entry all).order := by
  have distinct : ((all.entries.filter fun entry' =>
      decide (entry'.1 ∈ (reachedPart entry all).order)).map Prod.fst).Nodup :=
    all.nodup_keys.sublist (List.filter_sublist.map Prod.fst)
  have same : (reachedPart entry all).block? id = (SortedMap.ofList (all.entries.filter
      fun entry' => decide (entry'.1 ∈ (reachedPart entry all).order))).get? id := rfl
  rw [same, SortedMap.get?_ofList distinct, List.mem_filter, SortedMap.get?_eq_some_iff,
    decide_eq_true_iff]

/-- The part that is reached from the entry of well-formed blocks is a checked graph. -/
theorem checked_reachedPart {entry : BlockId} {all : SortedMap BlockId Block}
    (known : entry ∈ all.keys)
    (id_eq : ∀ {id block}, all.get? id = some block → block.id = id)
    (fits : ∀ {id block}, all.get? id = some block →
      block.succs.length = block.fanOut ∧ ∀ target ∈ block.succs, target ∈ all.keys) :
    (reachedPart entry all).Checked := by
  let next (id : BlockId) : List BlockId := ((all.get? id).map Block.succs).getD []
  have closed : Closed next all.keys := by
    intro id member target edge
    obtain ⟨block, found⟩ := SortedMap.mem_keys_iff.1 member
    simp only [next, found, Option.map_some, Option.getD_some] at edge
    exact (fits found).2 target edge
  have mem_order {id : BlockId} : id ∈ reversePostorder next all.size entry ↔
      ReflTransGen (Leads next) entry id :=
    mem_reversePostorder closed (by simp [SortedMap.keys, SortedMap.size]) known
  have block?_iff {id : BlockId} {block : Block} : (reachedPart entry all).block? id = some block ↔
      all.get? id = some block ∧ ReflTransGen (Leads next) entry id :=
    block?_reachedPart.trans (and_congr_right fun _ => mem_order)
  have mem_ids {id : BlockId} : id ∈ (reachedPart entry all).ids ↔
      ReflTransGen (Leads next) entry id := by
    rw [mem_ids_iff]
    constructor
    · rintro ⟨block, found⟩
      exact (block?_iff.1 found).2
    · intro path
      obtain ⟨block, found⟩ := SortedMap.mem_keys_iff.1 (closed.of_path path known)
      exact ⟨block, block?_iff.2 ⟨found, path⟩⟩
  have next_eq {id : BlockId} (path : ReflTransGen (Leads next) entry id) :
      (reachedPart entry all).next id = next id := by
    obtain ⟨block, found⟩ := SortedMap.mem_keys_iff.1 (closed.of_path path known)
    have here := block?_iff.2 ⟨found, path⟩
    simp only [BlockGraph.next, outEdges_of_block? here, Block.map_snd_outEdges (fits found).1,
      next, found, Option.map_some, Option.getD_some]
  refine ⟨mem_ids.2 .refl, ?_, ?_, ?_, ?_⟩
  · exact fun found => id_eq (block?_iff.1 found).1
  · exact fun found => (fits (block?_iff.1 found).1).1
  · intro id target edge
    by_cases member : id ∈ (reachedPart entry all).ids
    · have path := mem_ids.1 member
      rw [next_eq path] at edge
      exact mem_ids.2 (path.tail edge)
    · simp [BlockGraph.next, outEdges_of_unknown member] at edge
  · intro id member
    induction mem_ids.1 member with
    | refl => exact .refl
    | tail path edge ih =>
        refine .tail (ih (mem_ids.2 path)) ?_
        rw [Leads, next_eq path]
        exact edge

/-- A check of all blocks passes if that of each does. -/
theorem forM_eq_ok_iff {check : Block → Except GraphFault Unit} {blocks : List Block} :
    blocks.forM check = .ok () ↔ ∀ block ∈ blocks, check block = .ok () := by
  induction blocks with
  | nil => simp
  | cons first rest ih =>
      rw [List.forall_mem_cons, ← ih, List.forM_eq_forM, List.forM_cons, bind_eq_ok_iff]
      exact ⟨fun ⟨(), here, later⟩ => ⟨here, later⟩, fun ⟨here, later⟩ => ⟨(), here, later⟩⟩

/-- The blocks of a list by their numbers. -/
def byId (blocks : List Block) : SortedMap BlockId Block :=
  .ofList (blocks.map fun block => (block.id, block))

/-- A block is found under its number if the numbers differ. -/
theorem get?_byId {blocks : List Block} (distinct : (blocks.map Block.id).Nodup) {id : BlockId}
    {block : Block} : (byId blocks).get? id = some block ↔ block ∈ blocks ∧ block.id = id := by
  rw [byId, SortedMap.get?_ofList (by rw [List.map_map]; exact distinct), List.mem_map]
  constructor
  · rintro ⟨_, member, same⟩
    cases same
    exact ⟨member, rfl⟩
  · rintro ⟨member, rfl⟩
    exact ⟨block, member, rfl⟩

theorem mem_keys_byId {blocks : List Block} (distinct : (blocks.map Block.id).Nodup)
    {id : BlockId} : id ∈ (byId blocks).keys ↔ id ∈ blocks.map Block.id := by
  simp only [SortedMap.mem_keys_iff, get?_byId distinct, List.mem_map]

/-- Blocks form a graph if they have different numbers, the entry is among them, and each of them
passes the check. -/
theorem ofBlocks_eq_ok_iff {entry : BlockId} {blocks : List Block} {graph : BlockGraph} :
    ofBlocks entry blocks = .ok graph ↔ ((blocks.map Block.id).Nodup ∧
      entry ∈ blocks.map Block.id ∧
      ∀ block ∈ blocks, checkBlock (blocks.map Block.id) block = .ok ()) ∧
        graph = reachedPart entry (byId blocks) := by
  unfold ofBlocks
  cases repeated : firstRepeated [] (blocks.map Block.id) with
  | some id =>
      have twice : ¬ (blocks.map Block.id).Nodup := fun distinct => by
        rw [firstRepeated_eq_none_iff.2 ⟨distinct, by simp⟩] at repeated
        cases repeated
      simp [twice]
  | none =>
      have distinct := (firstRepeated_eq_none_iff.1 repeated).1
      have contains : (!(byId blocks).contains entry) = true ↔ entry ∉ blocks.map Block.id := by
        rw [← mem_keys_byId distinct, SortedMap.mem_keys_iff, ← Option.isSome_iff_exists,
          Bool.not_eq_true', ← Bool.not_eq_true, SortedMap.contains]
      have known {block : Block} : checkBlock (byId blocks).keys block = .ok () ↔
          checkBlock (blocks.map Block.id) block = .ok () := by
        simp only [checkBlock_eq_ok_iff, mem_keys_byId distinct]
      have values {block : Block} : block ∈ (byId blocks).values ↔ block ∈ blocks := by
        simp [SortedMap.mem_values_iff, get?_byId distinct]
      rw [← byId]
      dsimp only
      split
      · next unknown => simp [contains.1 unknown]
      · next isKnown =>
        rw [contains, not_not] at isKnown
        have passes : (byId blocks).values.forM (checkBlock (byId blocks).keys) = .ok () ↔
            ∀ block ∈ blocks, checkBlock (blocks.map Block.id) block = .ok () := by
          simp only [forM_eq_ok_iff, values, known]
        rw [bind_eq_ok_iff]
        constructor
        · rintro ⟨_, passed, made⟩
          exact ⟨⟨distinct, isKnown, passes.1 passed⟩, (Except.ok.inj made).symm⟩
        · rintro ⟨⟨-, -, passed⟩, rfl⟩
          exact ⟨(), passes.2 passed, rfl⟩

/-- Blocks that form a graph have different numbers, the entry among them, and are well formed. -/
theorem of_ofBlocks {entry : BlockId} {blocks : List Block} {graph : BlockGraph}
    (built : ofBlocks entry blocks = .ok graph) : ∃ all : SortedMap BlockId Block,
      graph = reachedPart entry all ∧ entry ∈ all.keys ∧ (blocks.map Block.id).Nodup ∧
        (∀ id block, all.get? id = some block ↔ block ∈ blocks ∧ block.id = id) ∧
        ∀ block ∈ blocks, checkBlock all.keys block = .ok () := by
  obtain ⟨⟨distinct, known, passed⟩, same⟩ := ofBlocks_eq_ok_iff.1 built
  refine ⟨byId blocks, same, (mem_keys_byId distinct).2 known, distinct,
    fun id block => get?_byId distinct, fun block member => ?_⟩
  have checks := passed block member
  rw [checkBlock_eq_ok_iff] at checks ⊢
  simpa only [mem_keys_byId distinct] using checks

/-- The graph of a list of blocks is checked. -/
theorem checked_ofBlocks {entry : BlockId} {blocks : List Block} {graph : BlockGraph}
    (built : ofBlocks entry blocks = .ok graph) : graph.Checked := by
  obtain ⟨all, rfl, known, -, found_iff, passed⟩ := of_ofBlocks built
  refine checked_reachedPart known (fun found => ((found_iff _ _).1 found).2) fun found => ?_
  exact (checkBlock_eq_ok_iff.1 (passed _ ((found_iff _ _).1 found).1)).2

/-- A block of the graph is the one of its number in the list, and branches, returns or throws in
its last instruction only. -/
theorem block_of_ofBlocks {entry : BlockId} {blocks : List Block} {graph : BlockGraph}
    (built : ofBlocks entry blocks = .ok graph) {id : BlockId} {block : Block}
    (found : graph.block? id = some block) : block ∈ blocks ∧
      (blocks.find? fun block => block.id = id) = some block ∧
        ∀ instr ∈ block.instrs.dropLast, instr.fanOut = 1 := by
  obtain ⟨all, rfl, -, distinct, found_iff, passed⟩ := of_ofBlocks built
  obtain ⟨member, rfl⟩ := (found_iff id block).1 (block?_reachedPart.1 found).1
  refine ⟨member, ?_, (checkBlock_eq_ok_iff.1 (passed block member)).1⟩
  obtain ⟨front, back, rfl⟩ := List.append_of_mem member
  rw [List.find?_eq_some_iff_append]
  refine ⟨by simp, front, back, rfl, fun other among => ?_⟩
  rw [List.map_append, List.nodup_append] at distinct
  simpa using distinct.2.2 _ (List.mem_map_of_mem among) block.id (by simp)

end BlockGraph

end GotoFree
