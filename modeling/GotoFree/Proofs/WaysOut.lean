import GotoFree.Proofs.Marking
import GotoFree.Proofs.Nesting

/-!
# The ways out of every node

The record of a node lists the ways out of its blocks that leave the node or run a loop around it
again, each by what it means where the node stands (`Tree.Records`). What an edge means depends on
the loop nodes around the node, so `Tree.placed` lists every node with the heads of these, and the
walk into a tree keeps them equal to the loops around its region (`Encloses`). The main statement is
that every node of a structured graph has such a record (`BlockGraph.exists_structured_records`).
-/

namespace GotoFree

open LoopForest

namespace Jumps

/-- The coordinates of plain flow. -/
def flowCoords (jumps : Jumps) : CoordSet := .ofList (jumps.flow.toList.map Prod.fst)

/-- The coordinates of continues. -/
def continueCoords (jumps : Jumps) : CoordSet := .ofList (jumps.continues.toList.map Prod.fst)

/-- The coordinates of a record by kind. -/
def kinds (jumps : Jumps) : List CoordSet :=
  [jumps.flowCoords, jumps.breakCoords, jumps.continueCoords, jumps.returns]

/-- A coordinate flows on if it has a target in the flow. -/
theorem mem_flowCoords {jumps : Jumps} {coord : Coord} :
    coord ∈ jumps.flowCoords ↔ ∃ target, (coord, target) ∈ jumps.flow := by
  simp [flowCoords, SortedSet.mem_toList]

/-- A coordinate breaks if it is listed with a target. -/
theorem mem_breakCoords {jumps : Jumps} {coord : Coord} :
    coord ∈ jumps.breakCoords ↔ ∃ target, jumps.breaks.get? coord = some target := by
  simp [breakCoords, SortedMap.mem_keys_iff]

/-- A coordinate continues if it is listed with a head. -/
theorem mem_continueCoords {jumps : Jumps} {coord : Coord} :
    coord ∈ jumps.continueCoords ↔ ∃ head, (coord, head) ∈ jumps.continues := by
  simp [continueCoords, SortedSet.mem_toList]

/-- A coordinate is recorded if it flows, breaks, continues or returns. -/
theorem mem_coords_iff {jumps : Jumps} {coord : Coord} :
    coord ∈ jumps.coords ↔ (∃ target, (coord, target) ∈ jumps.flow) ∨
      (∃ target, jumps.breaks.get? coord = some target) ∨
      (∃ head, (coord, head) ∈ jumps.continues) ∨ coord ∈ jumps.returns := by
  simp [coords, SortedSet.mem_toList, SortedMap.mem_keys_iff]

end Jumps

namespace Tree

mutual

/-- The node and all nodes in it, each with the heads of the loop nodes strictly around it,
innermost first; `around` has those around the tree. -/
def placed (around : List BlockId) : Tree → List (List BlockId × Tree)
  | tree@(jump ..) => [(around, tree)]
  | tree@(conditional _ taken notTaken) =>
      (around, tree) :: placedInArm around taken ++ placedInArm around notTaken
  | tree@(sequence _ elems) => (around, tree) :: placedInAll around elems
  | tree@(loop label _ body) => (around, tree) :: body.placed (label.head :: around)
  | tree@(merge _ alternatives _) => (around, tree) :: placedInAll around alternatives

/-- The nodes in an arm. -/
def placedInArm (around : List BlockId) : Arm → List (List BlockId × Tree)
  | .jump .. => []
  | .nested tree => tree.placed around

/-- The nodes of a list and all nodes in them. -/
def placedInAll (around : List BlockId) : List Tree → List (List BlockId × Tree)
  | [] => []
  | tree :: rest => tree.placed around ++ placedInAll around rest

end

theorem placedInAll_eq {around : List BlockId} (trees : List Tree) :
    placedInAll around trees = trees.flatMap (placed around) := by
  induction trees with
  | nil => simp [placedInAll]
  | cons first rest ih => simp [placedInAll, ih]

mutual

/-- No node is left out. -/
theorem map_snd_placed (around : List BlockId) (tree : Tree) :
    (tree.placed around).map Prod.snd = tree.nodes := by
  cases tree with
  | jump => simp [placed, nodes]
  | conditional label taken notTaken =>
      simp [placed, nodes, map_snd_placedInArm around taken, map_snd_placedInArm around notTaken]
  | sequence label elems => simp [placed, nodes, map_snd_placedInAll around elems]
  | loop label entries body => simp [placed, nodes, map_snd_placed (label.head :: around) body]
  | merge label alternatives incoming =>
      simp [placed, nodes, map_snd_placedInAll around alternatives]

theorem map_snd_placedInArm (around : List BlockId) (arm : Arm) :
    (placedInArm around arm).map Prod.snd = nodesOfArm arm := by
  cases arm with
  | jump => simp [placedInArm, nodesOfArm]
  | nested tree => simp [placedInArm, nodesOfArm, map_snd_placed around tree]

theorem map_snd_placedInAll (around : List BlockId) (trees : List Tree) :
    (placedInAll around trees).map Prod.snd = nodesOfAll trees := by
  cases trees with
  | nil => simp [placedInAll, nodesOfAll]
  | cons first rest =>
      simp [placedInAll, nodesOfAll, map_snd_placed around first, map_snd_placedInAll around rest]

end

/-- The record of a node in a region, with the heads of the loop nodes strictly around it: which
edges from its blocks it lists, what it takes each of them for, and nothing else but returns. -/
structure Records (graph : BlockGraph) (forest : LoopForest) (around : List BlockId)
    (region : Option Loop) (node : Tree) : Prop where
  /-- An edge is listed if it leaves the node or continues a loop around it. -/
  listed : ∀ coord target, graph.HasEdge coord target → coord.block ∈ node.blocks →
    (coord ∈ node.jumps.coords ↔ target ∉ node.blocks ∨
      ∃ loop, forest.continued? coord.block target = some loop ∧ loop.head ∈ around)
  /-- A listed edge that continues a loop is listed with the head of the loop. -/
  continues : ∀ coord target loop, graph.HasEdge coord target → coord ∈ node.jumps.coords →
    forest.continued? coord.block target = some loop →
      ∀ head, (coord, head) ∈ node.jumps.continues ↔ head = loop.head
  /-- Other listed edges are flow if they stay in the region. -/
  flow : ∀ coord target, graph.HasEdge coord target → coord ∈ node.jumps.coords →
    forest.continued? coord.block target = none → target ∈ blocksOf graph region →
      ∀ id, (coord, id) ∈ node.jumps.flow ↔ id = target
  /-- Other listed edges are exits if they leave the region. -/
  breaks : ∀ coord target, graph.HasEdge coord target → coord ∈ node.jumps.coords →
    forest.continued? coord.block target = none → target ∉ blocksOf graph region →
      node.jumps.breaks.get? coord = some target
  returns : ∀ coord, coord ∈ node.jumps.returns ↔
    coord.block ∈ node.blocks ∧ graph.IsReturn coord
  /-- Nothing else is listed. -/
  known : ∀ coord ∈ node.jumps.coords, coord.block ∈ node.blocks ∧
    ((∃ target, graph.HasEdge coord target) ∨ graph.IsReturn coord)
  /-- No coordinate is of two kinds. -/
  apart : node.jumps.kinds.Pairwise fun one two => ∀ coord ∈ one, coord ∉ two

end Tree

/-! ## The loop nodes around a node -/

/-- The heads of loop nodes, innermost first, are those of the loop whose body a region is and of
the loops around that one. -/
structure Encloses (forest : LoopForest) (around : List BlockId) (region : Option Loop) :
    Prop where
  owns : forest.Owns region
  innermost : around.head? = region.map Loop.head
  mem_iff : ∀ loop ∈ forest.all, loop.head ∈ around ↔
    ∃ own ∈ region, loop = own ∨ own ∈ Loop.flattenAll loop.inner

section WaysOut

variable {graph : BlockGraph} {forest : LoopForest} {NotedAs : Option Loop → Tree → Prop}
  {around : List BlockId} {region : Option Loop} {tree : Tree}

/-- No region is around the whole graph. -/
theorem encloses_none : Encloses forest [] none where
  owns := owns_none
  innermost := rfl
  mem_iff := by simp

/-- The loops around the body of a loop are that loop and those around its region. -/
theorem Encloses.enter (encloses : Encloses forest around region) (isOf : forest.IsOf graph)
    {loop : Loop} (nested : loop ∈ forest.inside region) :
    Encloses forest (loop.head :: around) (some loop) := by
  have within := Loop.mem_flattenAll_of_mem nested
  have known := encloses.owns.mem_all within
  refine ⟨owns_some known, rfl, fun other isOther => ?_⟩
  simp only [List.mem_cons, Option.mem_some_iff, exists_eq_left', encloses.mem_iff other isOther]
  constructor
  · rintro (same | ⟨own, rfl, rfl | outer⟩)
    · exact .inl (isOf.eq_of_head isOther known same)
    · exact .inr within
    · exact .inr (Loop.mem_flattenAll_of_inner outer within)
  · rintro (rfl | outer)
    · exact .inl rfl
    · refine .inr ?_
      cases region with
      | none => exact absurd outer (isOf.not_nested_of_inside owns_none nested isOther)
      | some own =>
          have isOwn := encloses.owns own rfl
          have isHead := isOf.entry_mem_body known (isOf.head_mem known)
          -- Of two loops around a third one holds the other.
          rcases isOf.position isOwn isOther (isOf.nested_body isOwn within isHead).1
            (isOf.nested_body isOther outer isHead).1 with same | deeper | around
          · exact ⟨own, rfl, .inl same.symm⟩
          · exact absurd outer (isOf.not_nested_of_inside encloses.owns nested deeper)
          · exact ⟨own, rfl, .inr around⟩

/-- Of the loops that hold a block of a region, those that do not lie in the region are around it.
-/
theorem Encloses.mem_iff_not_nested (encloses : Encloses forest around region)
    (isOf : forest.IsOf graph) {id : BlockId} (inside : id ∈ blocksOf graph region) {loop : Loop}
    (known : loop ∈ forest.all) (holds : id ∈ loop.body) :
    loop.head ∈ around ↔ loop ∉ Loop.flattenAll (forest.inside region) :=
  (encloses.mem_iff loop known).trans (isOf.not_nested_iff encloses.owns inside known holds).symm

/-- Every node of a tree that fits a region fits the region of the loop nodes around it. -/
theorem Fits.of_mem_placed (isOf : forest.IsOf graph) (fits : Fits graph forest NotedAs region tree)
    (encloses : Encloses forest around region) {heads : List BlockId} {node : Tree}
    (member : (heads, node) ∈ tree.placed around) :
    ∃ own, Encloses forest heads own ∧ Fits graph forest NotedAs own node := by
  induction fits generalizing around with
  | jump part noted direct straight leaves =>
      rw [Tree.placed, List.mem_singleton] at member
      obtain ⟨rfl, rfl⟩ := Prod.mk.inj member
      exact ⟨_, encloses, .jump part noted direct straight leaves⟩
  | @conditional _ _ left right _ _ part noted direct branching edges takenArm notTakenArm
      takenLeaves notTakenLeaves takenFits notTakenFits takenIh notTakenIh =>
      simp only [Tree.placed, List.cons_append, List.mem_cons, List.mem_append] at member
      rcases member with same | member | member
      · obtain ⟨rfl, rfl⟩ := Prod.mk.inj same
        exact ⟨_, encloses, .conditional part noted direct branching edges takenArm notTakenArm
          takenLeaves notTakenLeaves takenFits notTakenFits⟩
      · cases left with
        | jump => simp [Tree.placedInArm] at member
        | nested inner => exact takenIh inner rfl encloses member
      · cases right with
        | jump => simp [Tree.placedInArm] at member
        | nested inner => exact notTakenIh inner rfl encloses member
  | sequence part noted chain flat fits ih =>
      rw [Tree.placed, List.mem_cons, Tree.placedInAll_eq] at member
      rcases member with same | member
      · obtain ⟨rfl, rfl⟩ := Prod.mk.inj same
        exact ⟨_, encloses, .sequence part noted chain flat fits⟩
      · obtain ⟨elem, among, member⟩ := List.mem_flatMap.1 member
        exact ih elem among encloses member
  | loop part noted nested head heads whole fits ih =>
      rw [Tree.placed, List.mem_cons] at member
      rcases member with same | member
      · obtain ⟨rfl, rfl⟩ := Prod.mk.inj same
        exact ⟨_, encloses, .loop part noted nested head heads whole fits⟩
      · exact ih (encloses.enter isOf nested) (head ▸ member)
  | merge part noted heads several isEntry incoming_iff leaves fits ih =>
      rw [Tree.placed, List.mem_cons, Tree.placedInAll_eq] at member
      rcases member with same | member
      · obtain ⟨rfl, rfl⟩ := Prod.mk.inj same
        exact ⟨_, encloses, .merge part noted heads several isEntry incoming_iff leaves fits⟩
      · obtain ⟨elem, among, member⟩ := List.mem_flatMap.1 member
        exact ih elem among encloses member

/-! ## The record of one node -/

/-- A node holds the loops of its region that it has a block of as a whole. -/
theorem Fits.body_subset (isOf : forest.IsOf graph) (owns : forest.Owns region)
    (fits : Fits graph forest NotedAs region tree) {loop : Loop}
    (nested : loop ∈ Loop.flattenAll (forest.inside region)) {id : BlockId}
    (member : id ∈ tree.blocks) (holds : id ∈ loop.body) :
    ∀ other ∈ loop.body, other ∈ tree.blocks := by
  have not_direct {region : Option Loop} {head : BlockId} (owns : forest.Owns region)
      (inside : head ∈ blocksOf graph region) (direct : forest.innermost? head = region)
      (nested : loop ∈ Loop.flattenAll (forest.inside region)) : head ∉ loop.body := fun holds =>
    have known := isOf.blocksOf_known owns inside
    not_nested_of_direct isOf owns ((isOf.innermost?_eq_iff owns known).1 direct).2 holds nested
  induction fits with
  | jump part noted direct =>
      rw [Tree.blocks_jump, List.mem_singleton] at member
      exact absurd (member ▸ holds) (not_direct owns (part.inside _ (by simp)) direct nested)
  | @conditional _ _ left right _ _ part noted direct _ _ _ _ _ _ _ _ takenIh notTakenIh =>
      rw [Tree.blocks_conditional, List.mem_cons, List.mem_append] at member
      intro other inLoop
      rw [Tree.blocks_conditional, List.mem_cons, List.mem_append]
      rcases member with rfl | member | member
      · exact absurd holds (not_direct owns (part.inside _ (by simp)) direct nested)
      · cases left with
        | jump => cases member
        | nested inner => exact .inr (.inl (takenIh inner rfl owns nested member other inLoop))
      · cases right with
        | jump => cases member
        | nested inner => exact .inr (.inr (notTakenIh inner rfl owns nested member other inLoop))
  | sequence _ _ _ _ _ ih =>
      rw [Tree.blocks_sequence] at member ⊢
      obtain ⟨elem, among, member⟩ := List.mem_flatMap.1 member
      exact fun other inLoop =>
        List.mem_flatMap.2 ⟨elem, among, ih elem among owns nested member other inLoop⟩
  | @loop _ _ _ own _ _ isOwn _ _ whole =>
      rw [Tree.blocks_loop] at member ⊢
      intro other inLoop
      have known := owns.mem_all nested
      have ownKnown := owns.mem_all (Loop.mem_flattenAll_of_mem isOwn)
      rw [whole]
      rcases isOf.position ownKnown known ((whole _).1 member) holds with rfl | deeper | outer
      · exact inLoop
      · exact (isOf.nested_body ownKnown deeper inLoop).1
      · exact absurd outer (isOf.not_nested_of_inside owns isOwn nested)
  | merge _ _ _ _ _ _ _ _ ih =>
      rw [Tree.blocks_merge] at member ⊢
      obtain ⟨elem, among, member⟩ := List.mem_flatMap.1 member
      exact fun other inLoop =>
        List.mem_flatMap.2 ⟨elem, among, ih elem among owns nested member other inLoop⟩

/-! ## The record of one node, by kind -/

section Records

variable {ways : Coord → Prop} {jumps : Jumps} {coord : Coord} {target : BlockId} {loop : Loop}

/-- What is recorded is a way of the part, by an edge or by a return. -/
theorem Sums.way_of_mem_coords (sums : Sums graph forest region ways jumps)
    (member : coord ∈ jumps.coords) :
    ways coord ∧ ((∃ target, graph.HasEdge coord target) ∨ graph.IsReturn coord) := by
  rcases Jumps.mem_coords_iff.1 member with
    ⟨target, flows⟩ | ⟨target, exits⟩ | ⟨head, continues⟩ | returns
  · obtain ⟨way, plain, -⟩ := sums.flow.1 flows
    exact ⟨way, .inl ⟨target, plain.1⟩⟩
  · obtain ⟨way, plain, -⟩ := sums.breaks.1 exits
    exact ⟨way, .inl ⟨target, plain.1⟩⟩
  · obtain ⟨way, loop, ⟨target, edge, -⟩, -⟩ := sums.continues.1 continues
    exact ⟨way, .inl ⟨target, edge⟩⟩
  · obtain ⟨way, isReturn⟩ := sums.returns.1 returns
    exact ⟨way, .inr isReturn⟩

/-- A coordinate that leads on plainly is recorded exactly if it is a way of the part. -/
theorem Sums.mem_coords_iff_of_plain (sums : Sums graph forest region ways jumps)
    (plain : Plain graph forest coord target) : coord ∈ jumps.coords ↔ ways coord := by
  refine ⟨fun member => (sums.way_of_mem_coords member).1, fun way => ?_⟩
  rw [Jumps.mem_coords_iff]
  by_cases inside : target ∈ blocksOf graph region
  · exact .inl ⟨target, sums.flow.2 ⟨way, plain, inside⟩⟩
  · exact .inr (.inl ⟨target, sums.breaks.2 ⟨way, plain, inside⟩⟩)

/-- A coordinate that runs a loop again is recorded exactly if it is a way of the part and the loop
is not inside. -/
theorem Sums.mem_coords_iff_of_continues (checked : graph.Checked)
    (sums : Sums graph forest region ways jumps) (continues : Continues graph forest coord loop) :
    coord ∈ jumps.coords ↔
      ways coord ∧ loop ∉ Loop.flattenAll (forest.inside region) := by
  rw [Jumps.mem_coords_iff]
  constructor
  · rintro (⟨target, flows⟩ | ⟨target, exits⟩ | ⟨head, listed⟩ | returns)
    · exact absurd continues ((sums.flow.1 flows).2.1.not_continues checked)
    · exact absurd continues ((sums.breaks.1 exits).2.1.not_continues checked)
    · obtain ⟨way, other, continues', outside, -⟩ := sums.continues.1 listed
      exact ⟨way, continues.unique checked continues' ▸ outside⟩
    · obtain ⟨target, edge, -⟩ := continues
      obtain ⟨-, -, returning⟩ := sums.returns.1 returns
      exact absurd returning (by simp [not_isReturning_of_edge checked edge])
  · rintro ⟨way, outside⟩
    exact .inr (.inr (.inl ⟨loop.head, sums.continues.2 ⟨way, loop, continues, outside, rfl⟩⟩))

/-- The kinds of ways out in a record exclude each other. -/
theorem Sums.apart (checked : graph.Checked) (sums : Sums graph forest region ways jumps) :
    jumps.kinds.Pairwise fun one two => ∀ coord ∈ one, coord ∉ two := by
  have flows {coord : Coord} (member : coord ∈ jumps.flowCoords) :
      ∃ target, Plain graph forest coord target ∧ target ∈ blocksOf graph region := by
    obtain ⟨target, listed⟩ := Jumps.mem_flowCoords.1 member
    exact ⟨target, (sums.flow.1 listed).2⟩
  have exits {coord : Coord} (member : coord ∈ jumps.breakCoords) :
      ∃ target, Plain graph forest coord target ∧ target ∉ blocksOf graph region := by
    obtain ⟨target, listed⟩ := Jumps.mem_breakCoords.1 member
    exact ⟨target, (sums.breaks.1 listed).2⟩
  have continues {coord : Coord} (member : coord ∈ jumps.continueCoords) :
      ∃ loop, Continues graph forest coord loop := by
    obtain ⟨head, listed⟩ := Jumps.mem_continueCoords.1 member
    obtain ⟨-, loop, continued, -⟩ := sums.continues.1 listed
    exact ⟨loop, continued⟩
  have returns {coord : Coord} (member : coord ∈ jumps.returns) {target : BlockId} :
      ¬ graph.HasEdge coord target := fun edge => by
    simpa [(sums.returns.1 member).2.2] using not_isReturning_of_edge checked edge
  simp only [Jumps.kinds, List.pairwise_cons, List.mem_cons, List.not_mem_nil, or_false,
    forall_eq_or_imp, forall_eq, false_implies, implies_true, List.Pairwise.nil, and_true]
  refine ⟨⟨fun coord first second => ?_, fun coord first second => ?_,
    fun coord first second => ?_⟩, ⟨fun coord first second => ?_, fun coord first second => ?_⟩,
    fun coord first second => ?_⟩
  · obtain ⟨target, plain, inside⟩ := flows first
    obtain ⟨other, plain', outside⟩ := exits second
    exact outside (plain.unique checked plain' ▸ inside)
  · obtain ⟨target, plain, -⟩ := flows first
    obtain ⟨loop, continued⟩ := continues second
    exact plain.not_continues checked continued
  · obtain ⟨target, plain, -⟩ := flows first
    exact returns second plain.1
  · obtain ⟨target, plain, -⟩ := exits first
    obtain ⟨loop, continued⟩ := continues second
    exact plain.not_continues checked continued
  · obtain ⟨target, plain, -⟩ := exits first
    exact returns second plain.1
  · obtain ⟨loop, target, edge, -⟩ := continues first
    exact returns second edge

end Records

/-- The record of a node that fits its region is exact. -/
theorem Fits.records (checked : graph.Checked) (isOf : forest.IsOf graph)
    (encloses : Encloses forest around region) (fits : Fits graph forest NotedAs region tree) :
    tree.Records graph forest around region := by
  have sums := fits.part.ways
  refine ⟨fun coord target edge source => ?_, fun coord target loop edge member continued head =>
    ?_, fun coord target edge member continued inside id => ?_,
    fun coord target edge member continued outside => ?_, fun coord => ?_, fun coord member => ?_,
    sums.apart checked⟩
  · cases continued : forest.continued? coord.block target with
    | none =>
        have plain : Plain graph forest coord target := ⟨edge, continued⟩
        rw [sums.mem_coords_iff_of_plain plain]
        simp only [reduceCtorEq, false_and, exists_false, or_false]
        exact ⟨fun leaves => leaves.2 target plain, fun outside =>
          ⟨source, fun other plain' => plain.unique checked plain' ▸ outside⟩⟩
    | some loop =>
        have continues : Continues graph forest coord loop := ⟨target, edge, continued⟩
        obtain ⟨known, isEntry, holds⟩ := isOf.continued?_eq_some_iff.1 continued
        have leaves : Leaves graph forest tree.blocks coord :=
          ⟨source, fun other plain => absurd continues (plain.not_continues checked)⟩
        rw [sums.mem_coords_iff_of_continues checked continues,
          and_iff_right leaves,
          ← encloses.mem_iff_not_nested isOf (fits.part.inside _ source) known holds]
        simp only [Option.some.injEq, exists_eq_left']
        refine ⟨.inr, fun reason => reason.elim (fun away => ?_) id⟩
        by_contra within
        rw [encloses.mem_iff_not_nested isOf (fits.part.inside _ source) known holds,
          not_not] at within
        exact away (fits.body_subset isOf encloses.owns within source holds target
          (isOf.entry_mem_body known isEntry))
  · have continues : Continues graph forest coord loop := ⟨target, edge, continued⟩
    obtain ⟨leaves, outside⟩ := (sums.mem_coords_iff_of_continues checked continues).1 member
    rw [sums.continues]
    constructor
    · rintro ⟨-, other, continues', -, rfl⟩
      rw [continues.unique checked continues']
    · rintro rfl
      exact ⟨leaves, loop, continues, outside, rfl⟩
  · have plain : Plain graph forest coord target := ⟨edge, continued⟩
    have leaves := (sums.mem_coords_iff_of_plain plain).1 member
    rw [sums.flow]
    constructor
    · rintro ⟨-, plain', -⟩
      exact plain'.unique checked plain
    · rintro rfl
      exact ⟨leaves, plain, inside⟩
  · have plain : Plain graph forest coord target := ⟨edge, continued⟩
    exact sums.breaks.2 ⟨(sums.mem_coords_iff_of_plain plain).1 member, plain, outside⟩
  · rw [sums.returns]
    refine and_congr_left fun isReturn => and_iff_left fun target plain => ?_
    exact absurd isReturn.2 (by simp [not_isReturning_of_edge checked plain.1])
  · obtain ⟨leaves, way⟩ := sums.way_of_mem_coords member
    exact ⟨leaves.1, way⟩

end WaysOut

/-- Every graph built from a list of blocks is structured, and each node of the tree has an exact
record of its ways out: the edges that leave it or continue a loop around it, each by what it means
in the region of the innermost loop node around the node, and the returns. -/
theorem BlockGraph.exists_structured_records {entry : BlockId} {blocks : List Block}
    {graph : BlockGraph} (built : BlockGraph.ofBlocks entry blocks = .ok graph) :
    ∃ found, graph.toStructured = .ok found ∧ LoopForest.ofGraph graph = .ok found.forest ∧
      (found.root.placed []).map Prod.snd = found.root.nodes ∧
      ∀ around node, (around, node) ∈ found.root.placed [] →
        ∃ region, found.forest.Owns region ∧ around.head? = region.map Loop.head ∧
          node.Records graph found.forest around region := by
  have checked := checked_ofBlocks built
  obtain ⟨found, made, search, isFound⟩ := checked.exists_toStructured
  refine ⟨found, made, search, found.root.map_snd_placed [], fun around node member => ?_⟩
  obtain ⟨region, encloses, fits⟩ :=
    isFound.fits.of_mem_placed isFound.isOf encloses_none member
  exact ⟨region, encloses.owns, encloses.innermost, fits.records checked isFound.isOf encloses⟩

/-- A loop in a loop: the inner one runs the outer one again along one edge, and leaves both along
another. -/
def doublySpinningBlocks : List Block :=
  [⟨⟨0⟩, [], [⟨1⟩]⟩, ⟨⟨1⟩, [.branch .nondet], [⟨2⟩, ⟨4⟩]⟩, ⟨⟨2⟩, [.branch .nondet], [⟨3⟩, ⟨1⟩]⟩,
    ⟨⟨3⟩, [.branch .nondet], [⟨2⟩, ⟨4⟩]⟩, ⟨⟨4⟩, [.ret none], []⟩]

/-- The records of two nested loops are those of their ways out. -/
theorem BlockGraph.exists_structured_records_doublySpinning : ∃ graph found node region,
    BlockGraph.ofBlocks ⟨0⟩ doublySpinningBlocks = .ok graph ∧ graph.toStructured = .ok found ∧
      ([⟨1⟩], node) ∈ found.root.placed [] ∧ node.loopHead? = some ⟨2⟩ ∧
      some ⟨1⟩ = region.map Loop.head ∧ node.Records graph found.forest [⟨1⟩] region := by
  have built : BlockGraph.ofBlocks ⟨0⟩ doublySpinningBlocks = .ok _ := rfl
  obtain ⟨found, made, -, -, records⟩ := BlockGraph.exists_structured_records built
  have heads : (BlockGraph.ofBlocks ⟨0⟩ doublySpinningBlocks).toOption.bind (fun graph =>
      graph.toStructured.toOption.map fun found =>
        (found.root.placed []).map fun place => (place.1, place.2.loopHead?)) =
      some [([], none), ([], none), ([], some ⟨1⟩), ([⟨1⟩], none), ([⟨1⟩], none),
        ([⟨1⟩], some ⟨2⟩), ([⟨2⟩, ⟨1⟩], none), ([⟨2⟩, ⟨1⟩], none), ([⟨1⟩], none)] := by
    decide +kernel
  rw [built, Except.toOption, Option.bind_some, made, Except.toOption, Option.map_some,
    Option.some.injEq] at heads
  have listed : ([⟨1⟩], some ⟨2⟩) ∈
      (found.root.placed []).map fun place => (place.1, place.2.loopHead?) := by
    simp [heads]
  obtain ⟨⟨around, node⟩, member, same⟩ := List.mem_map.1 listed
  obtain ⟨rfl, isHead⟩ := Prod.mk.inj same
  obtain ⟨region, -, innermost, exact⟩ := records _ node member
  exact ⟨_, found, node, region, built, made, member, isHead, innermost, exact⟩

end GotoFree
