import Mathlib.Data.List.Nodup
import Mathlib.Data.List.Perm.Subperm
import Mathlib.Data.Set.Function
import Mathlib.Order.Interval.Set.Defs
import GotoFree.Proofs.Graph

/-!
# The graph that blocks form

Blocks form a graph exactly if they are well formed, also those that are not reached (`FormGraph`).
The graph holds the blocks that the entry leads to, its edges are listed alike at both ends, and the
reverse post-order numbers its blocks so that every edge climbs unless it can be gone back
(`BlockGraph.formed_ofBlocks`).
-/

namespace GotoFree

open Relation

/-- The instruction branches, returns or throws. -/
def Instr.IsTerminator : Instr → Prop
  | .branch _ | .ret _ | .throw _ => True
  | .identity .. | .assign .. | .goto | .call _ | .nop _ | .aliased .. => False

/-- An instruction has one successor unless it ends its block. -/
theorem Instr.fanOut_eq_one_iff {instr : Instr} : instr.fanOut = 1 ↔ ¬ instr.IsTerminator := by
  cases instr <;> simp [fanOut, IsTerminator]

/-- A block branches, returns or throws in its last instruction only, has as many successors as that
one asks for, and all of them are known. -/
structure Block.WellFormed (known : List BlockId) (block : Block) : Prop where
  ends : ∀ instr ∈ block.instrs.dropLast, ¬ instr.IsTerminator
  fits : block.succs.length = block.fanOut
  known : ∀ target ∈ block.succs, target ∈ known

/-- Blocks with different numbers, one of them the entry, and all of them well formed. -/
structure FormGraph (entry : BlockId) (blocks : List Block) : Prop where
  distinct : (blocks.map Block.id).Nodup
  entry_mem : entry ∈ blocks.map Block.id
  wellFormed : ∀ block ∈ blocks, block.WellFormed (blocks.map Block.id)

/-- Control may go from one of some blocks to another one. -/
def Follows (blocks : List Block) (source target : BlockId) : Prop :=
  ∃ block ∈ blocks, block.id = source ∧ target ∈ block.succs

namespace BlockGraph

variable {entry : BlockId} {blocks : List Block} {graph : BlockGraph}

/-- A graph holds what is reached of some blocks from an entry. -/
structure Formed (entry : BlockId) (blocks : List Block) (graph : BlockGraph) : Prop where
  entry_eq : graph.entry = entry
  block?_iff : ∀ id block, graph.block? id = some block ↔
    block ∈ blocks ∧ block.id = id ∧ ReflTransGen (Follows blocks) entry id
  /-- An edge is listed at its target as often as at its source. -/
  count_inEdges : ∀ coord source target,
    (graph.inEdges target).count (coord, source) = (graph.outEdges source).count (coord, target)
  /-- The positions are the numbers below that of the blocks. -/
  bijOn_position : Set.BijOn graph.position {id | id ∈ graph.ids} (Set.Iio graph.ids.length)
  position_entry : graph.position entry = 0
  /-- An edge that cannot be gone back leads to a later position. -/
  position_lt : ∀ source target, target ∈ graph.next source →
    ¬ ReflTransGen (Leads graph.next) target source →
      graph.position source < graph.position target

/-! ## Success -/

/-- A block passes the check if it is well-formed. -/
theorem checkBlock_eq_ok_iff_wellFormed {known : List BlockId} {block : Block} :
    checkBlock known block = .ok () ↔ block.WellFormed known := by
  rw [checkBlock_eq_ok_iff]
  simp only [Instr.fanOut_eq_one_iff]
  exact ⟨fun ⟨ends, fits, known⟩ => ⟨ends, fits, known⟩,
    fun ⟨ends, fits, known⟩ => ⟨ends, fits, known⟩⟩

/-- A graph is built exactly if the blocks form one. -/
theorem exists_ofBlocks_iff : (∃ graph, ofBlocks entry blocks = .ok graph) ↔
    FormGraph entry blocks := by
  simp only [ofBlocks_eq_ok_iff, checkBlock_eq_ok_iff_wellFormed]
  constructor
  · rintro ⟨-, ⟨distinct, known, wellFormed⟩, -⟩
    exact ⟨distinct, known, wellFormed⟩
  · exact fun ⟨distinct, known, wellFormed⟩ => ⟨_, ⟨distinct, known, wellFormed⟩, rfl⟩

/-! ## Edges at both ends -/

/-- No edge out of a block is listed twice. -/
theorem Checked.nodup_outEdges (checked : graph.Checked) {id : BlockId} :
    (graph.outEdges id).Nodup := by
  cases branching : graph.isBranching id with
  | true =>
      obtain ⟨taken, notTaken, edges⟩ := checked.outEdges_of_isBranching branching
      simp [edges]
  | false =>
      obtain edges | ⟨target, edges⟩ := checked.outEdges_of_not_isBranching branching
      · simp [edges]
      · simp [edges]

/-- No edge into a block is listed twice. -/
theorem Checked.nodup_inEdges (checked : graph.Checked) {id : BlockId} :
    (graph.inEdges id).Nodup := by
  refine List.nodup_flatMap.2 ⟨fun block member => ?_, ?_⟩
  · obtain ⟨source, found⟩ := SortedMap.mem_values_iff.1 member
    refine List.Nodup.map_on ?_ (List.Nodup.filter _ ?_)
    · rintro ⟨coord, target⟩ isEdge ⟨other, otherTarget⟩ isOther same
      simp only [List.mem_filter, decide_eq_true_eq] at isEdge isOther
      simp_all
    · rw [← outEdges_of_block? found]
      exact checked.nodup_outEdges
  · rw [SortedMap.values, List.pairwise_map]
    refine List.Pairwise.imp_of_mem ?_ (List.pairwise_map.1 graph.blocks.nodup_keys)
    rintro ⟨first, one⟩ ⟨second, two⟩ isFirst isSecond differs
    refine List.disjoint_left.2 fun edge fromOne fromTwo => differs ?_
    obtain ⟨_, -, ofOne⟩ := List.mem_map.1 fromOne
    obtain ⟨_, -, ofTwo⟩ := List.mem_map.1 fromTwo
    calc first
      _ = one.id := (checked.id_eq (SortedMap.get?_eq_some_iff.2 isFirst)).symm
      _ = edge.2 := congrArg Prod.snd ofOne
      _ = two.id := (congrArg Prod.snd ofTwo).symm
      _ = second := checked.id_eq (SortedMap.get?_eq_some_iff.2 isSecond)

/-- An edge stands as often among those into its target as among those out of its source. -/
theorem Checked.count_inEdges (checked : graph.Checked) {coord : Coord} {source target : BlockId} :
    (graph.inEdges target).count (coord, source) =
      (graph.outEdges source).count (coord, target) := by
  rw [checked.nodup_inEdges.count, checked.nodup_outEdges.count]
  simp only [checked.mem_inEdges_iff]

/-! ## The order of the blocks -/

/-- The blocks that come right after a block in a list. -/
def successorsIn (blocks : List Block) (id : BlockId) : List BlockId :=
  (((byId blocks).get? id).map Block.succs).getD []

/-- The table of successors leads where the blocks do. -/
theorem leads_successorsIn (distinct : (blocks.map Block.id).Nodup) :
    Leads (successorsIn blocks) = Follows blocks := by
  ext source target
  rw [Leads, successorsIn]
  constructor
  · intro member
    cases found : (byId blocks).get? source with
    | none => simp [found] at member
    | some block =>
        obtain ⟨among, same⟩ := (get?_byId distinct).1 found
        exact ⟨block, among, same, by simpa [found] using member⟩
  · rintro ⟨block, among, same, member⟩
    simpa [(get?_byId distinct).2 ⟨among, same⟩] using member

section Reached

variable (forms : FormGraph entry blocks)

include forms

/-- No successor is missing among blocks that are well-formed. -/
theorem closed_successorsIn : Closed (successorsIn blocks) (blocks.map Block.id) := by
  intro id _ target edge
  rw [← Leads, leads_successorsIn forms.distinct] at edge
  obtain ⟨block, among, -, member⟩ := edge
  exact (forms.wellFormed block among).known target member

/-- The walk may take as many steps as there are blocks. -/
theorem size_byId : (blocks.map Block.id).length ≤ (byId blocks).size := by
  have subset : blocks.map Block.id ⊆ (byId blocks).keys := fun id member =>
    (mem_keys_byId forms.distinct).2 member
  simpa [SortedMap.keys, SortedMap.size] using (List.Nodup.subperm forms.distinct subset).length_le

/-- The walk lists the blocks that the entry leads to. -/
theorem mem_order_iff {id : BlockId} : id ∈ (reachedPart entry (byId blocks)).order ↔
    ReflTransGen (Follows blocks) entry id := by
  rw [← leads_successorsIn forms.distinct]
  exact mem_reversePostorder (closed_successorsIn forms) (size_byId forms) forms.entry_mem

/-- The walk lists no block twice. -/
theorem nodup_order : (reachedPart entry (byId blocks)).order.Nodup :=
  nodup_reversePostorder (closed_successorsIn forms) (size_byId forms) forms.entry_mem

/-- The blocks that are kept are those that the entry leads to. -/
theorem block?_reachedPart_iff {id : BlockId} {block : Block} :
    (reachedPart entry (byId blocks)).block? id = some block ↔
      block ∈ blocks ∧ block.id = id ∧ ReflTransGen (Follows blocks) entry id := by
  rw [block?_reachedPart, get?_byId forms.distinct, mem_order_iff forms, and_assoc]

theorem mem_ids_reachedPart_iff {id : BlockId} : id ∈ (reachedPart entry (byId blocks)).ids ↔
    id ∈ (reachedPart entry (byId blocks)).order := by
  rw [mem_order_iff forms, mem_ids_iff]
  constructor
  · rintro ⟨block, found⟩
    exact ((block?_reachedPart_iff forms).1 found).2.2
  · intro path
    have path' := path
    rw [← leads_successorsIn forms.distinct] at path'
    obtain ⟨block, among, same⟩ :=
      List.mem_map.1 ((closed_successorsIn forms).of_path path' forms.entry_mem)
    exact ⟨block, (block?_reachedPart_iff forms).2 ⟨among, same, path⟩⟩

/-- The blocks that are kept are those of the walk, in another order. -/
theorem perm_order : (reachedPart entry (byId blocks)).ids.Perm
    (reachedPart entry (byId blocks)).order :=
  (List.perm_ext_iff_of_nodup (SortedMap.nodup_keys _) (nodup_order forms)).2 fun _ =>
    mem_ids_reachedPart_iff forms

/-- The positions of the blocks count them from zero. -/
theorem bijOn_position_reachedPart :
    Set.BijOn (reachedPart entry (byId blocks)).position
      {id | id ∈ (reachedPart entry (byId blocks)).ids}
      (Set.Iio (reachedPart entry (byId blocks)).ids.length) := by
  rw [(perm_order forms).length_eq]
  refine ⟨fun id member => ?_, fun id member other _ same => ?_, fun position inside => ?_⟩
  · exact List.idxOf_lt_length_iff.2 ((mem_ids_reachedPart_iff forms).1 member)
  · exact (List.idxOf_inj ((mem_ids_reachedPart_iff forms).1 member)).1 same
  · refine ⟨(reachedPart entry (byId blocks)).order.get ⟨position, inside⟩, ?_, ?_⟩
    · exact (mem_ids_reachedPart_iff forms).2 (List.getElem_mem inside)
    · exact (nodup_order forms).idxOf_getElem position inside

/-- The edges of the graph are those of the blocks that it holds. -/
theorem leads_reachedPart_iff {source target : BlockId}
    (reached : ReflTransGen (Follows blocks) entry source) :
    Leads (reachedPart entry (byId blocks)).next source target ↔ Follows blocks source target := by
  have known := (mem_ids_reachedPart_iff forms).2 ((mem_order_iff forms).2 reached)
  obtain ⟨block, found⟩ := mem_ids_iff.1 known
  obtain ⟨among, same, -⟩ := (block?_reachedPart_iff forms).1 found
  rw [← leads_successorsIn forms.distinct, Leads, Leads, next, outEdges_of_block? found,
    Block.map_snd_outEdges (forms.wellFormed block among).fits, successorsIn,
    (get?_byId forms.distinct).2 ⟨among, same⟩]
  rfl

/-- A path among the blocks stays among those that are kept. -/
theorem path_reachedPart {source target : BlockId}
    (reached : ReflTransGen (Follows blocks) entry source)
    (path : ReflTransGen (Follows blocks) source target) :
    ReflTransGen (Leads (reachedPart entry (byId blocks)).next) source target := by
  induction path with
  | refl => exact .refl
  | tail path edge ih =>
      exact ih.tail ((leads_reachedPart_iff forms (reached.trans path)).2 edge)

/-- The entry stands first. -/
theorem position_reachedPart_entry : (reachedPart entry (byId blocks)).position entry = 0 := by
  have room : 0 < (byId blocks).size := Nat.lt_of_lt_of_le
    (List.length_pos_of_mem forms.entry_mem) (size_byId forms)
  have first : (reachedPart entry (byId blocks)).order.head? = some entry :=
    head?_reversePostorder room
  obtain ⟨rest, same⟩ := List.head?_eq_some_iff.1 first
  rw [position, same, List.idxOf_cons_self]

/-- An edge that cannot be gone back leads to a later position. -/
theorem position_reachedPart_lt {source target : BlockId}
    (edge : target ∈ (reachedPart entry (byId blocks)).next source)
    (apart : ¬ ReflTransGen (Leads (reachedPart entry (byId blocks)).next) target source) :
    (reachedPart entry (byId blocks)).position source <
      (reachedPart entry (byId blocks)).position target := by
  have known : source ∈ (reachedPart entry (byId blocks)).ids := by
    by_contra unknown
    simp [next, outEdges_of_unknown unknown] at edge
  have listed := (mem_ids_reachedPart_iff forms).1 known
  have reached := (mem_order_iff forms).1 listed
  have follows := (leads_reachedPart_iff forms reached).1 edge
  have descends : Walk.Descends (successorsIn blocks) (reachedPart entry (byId blocks)).order :=
    descends_reversePostorder (closed_successorsIn forms) (size_byId forms) forms.entry_mem
  refine descends.idxOf_lt (nodup_order forms) listed ?_ fun back => apart ?_
  · rw [← Leads, leads_successorsIn forms.distinct]
    exact follows
  · rw [leads_successorsIn forms.distinct] at back
    exact path_reachedPart forms (reached.tail follows) back

end Reached

/-- Blocks form a graph with an entry exactly if they have different numbers, the entry among them,
and each of them branches, returns or throws in its last instruction only, has as many successors as
that asks for, and no others than these blocks. The graph then holds exactly the blocks that the
entry leads to, each edge stands among those into its target as often as among those out of its
source, and the positions of the blocks are 0, for the entry, and the numbers after it, such that
each edge that cannot be gone back leads to a later position. -/
theorem formed_ofBlocks : ((∃ graph, ofBlocks entry blocks = .ok graph) ↔ FormGraph entry blocks) ∧
    ∀ graph, ofBlocks entry blocks = .ok graph → graph.Formed entry blocks := by
  refine ⟨exists_ofBlocks_iff, fun graph built => ?_⟩
  have forms := exists_ofBlocks_iff.1 ⟨graph, built⟩
  have checked := checked_ofBlocks built
  obtain ⟨-, rfl⟩ := ofBlocks_eq_ok_iff.1 built
  refine ⟨rfl, fun id block => block?_reachedPart_iff forms, fun _ _ _ => checked.count_inEdges,
    bijOn_position_reachedPart forms, position_reachedPart_entry forms,
    fun _ _ => position_reachedPart_lt forms⟩

/-- A loop of two blocks, and a block that is not reached. -/
def strayBlocks : List Block :=
  [⟨⟨0⟩, [.goto], [⟨1⟩]⟩, ⟨⟨1⟩, [.branch .nondet], [⟨2⟩, ⟨3⟩]⟩, ⟨⟨2⟩, [], [⟨1⟩]⟩,
    ⟨⟨3⟩, [.ret none], []⟩, ⟨⟨4⟩, [.goto], [⟨3⟩]⟩]

/-- A block that the entry does not lead to is left out. -/
theorem formed_ofBlocks_stray : FormGraph ⟨0⟩ strayBlocks ∧ ∃ graph,
    ofBlocks ⟨0⟩ strayBlocks = .ok graph ∧ graph.Formed ⟨0⟩ strayBlocks ∧
      graph.ids = [⟨0⟩, ⟨1⟩, ⟨2⟩, ⟨3⟩] ∧ graph.dropped = [⟨4⟩] := by
  obtain ⟨forms, formed⟩ := @formed_ofBlocks ⟨0⟩ strayBlocks
  have built : ofBlocks ⟨0⟩ strayBlocks = .ok _ := rfl
  exact ⟨forms.1 ⟨_, built⟩, _, built, formed _ built, rfl, rfl⟩

end BlockGraph

end GotoFree
