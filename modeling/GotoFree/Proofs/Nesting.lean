import GotoFree.Proofs.Structure

/-!
# One node for each block, one for each loop

A structured graph has one node for each block, a conditional exactly where the block branches, and
one loop node for each loop, around exactly the blocks of the loop's body; loop nodes lie in each
other as the loops do (`BlockGraph.exists_structured_once`).
-/

namespace GotoFree

open LoopForest

namespace Tree

/-- The head of a loop node. -/
def loopHead? : Tree → Option BlockId
  | loop label .. => some label.head
  | jump .. | conditional .. | sequence .. | merge .. => none

/-- Whether the node is a conditional. -/
def isConditional : Tree → Bool
  | conditional .. => true
  | jump .. | sequence .. | loop .. | merge .. => false

mutual

/-- The heads of the loop nodes in a tree, each with the head of the innermost loop node around it;
`around` is the head of the one around the tree. -/
def nestings (around : Option BlockId) : Tree → List (BlockId × Option BlockId)
  | jump .. => []
  | conditional _ taken notTaken => nestingsOfArm around taken ++ nestingsOfArm around notTaken
  | sequence _ elems => nestingsOfAll around elems
  | loop label _ body => (label.head, around) :: body.nestings (some label.head)
  | merge _ alternatives _ => nestingsOfAll around alternatives

/-- The loop nodes in an arm. -/
def nestingsOfArm (around : Option BlockId) : Arm → List (BlockId × Option BlockId)
  | .jump .. => []
  | .nested tree => tree.nestings around

/-- The loop nodes in the trees of a list. -/
def nestingsOfAll (around : Option BlockId) : List Tree → List (BlockId × Option BlockId)
  | [] => []
  | tree :: rest => tree.nestings around ++ nestingsOfAll around rest

end

theorem nestingsOfAll_eq {around : Option BlockId} (trees : List Tree) :
    nestingsOfAll around trees = trees.flatMap (nestings around) := by
  induction trees with
  | nil => simp [nestingsOfAll]
  | cons first rest ih => simp [nestingsOfAll, ih]

end Tree

section Nesting

variable {graph : BlockGraph} {forest : LoopForest} {NotedAs : Option Loop → Tree → Prop}
  {around : Option Loop} {tree : Tree}

/-- Every node of a tree that fits a region fits a region. -/
theorem Fits.of_mem_nodes (fits : Fits graph forest NotedAs around tree) (owns : forest.Owns around)
    {node : Tree} (member : node ∈ tree.nodes) :
    ∃ region, forest.Owns region ∧ Fits graph forest NotedAs region node := by
  induction fits with
  | jump part noted direct straight leaves =>
      rw [Tree.nodes, List.mem_singleton] at member
      exact ⟨_, owns, member ▸ .jump part noted direct straight leaves⟩
  | @conditional _ _ left right _ _ part noted direct branching edges takenArm notTakenArm
      takenLeaves notTakenLeaves takenFits notTakenFits takenIh notTakenIh =>
      simp only [Tree.nodes, List.cons_append, List.mem_cons, List.mem_append] at member
      rcases member with rfl | member | member
      · exact ⟨_, owns, .conditional part noted direct branching edges takenArm notTakenArm
          takenLeaves notTakenLeaves takenFits notTakenFits⟩
      · cases left with
        | jump => simp [Tree.nodesOfArm] at member
        | nested inner => exact takenIh inner rfl owns member
      · cases right with
        | jump => simp [Tree.nodesOfArm] at member
        | nested inner => exact notTakenIh inner rfl owns member
  | sequence part noted chain flat fits ih =>
      rw [Tree.nodes, List.mem_cons, Tree.nodesOfAll_eq] at member
      rcases member with rfl | member
      · exact ⟨_, owns, .sequence part noted chain flat fits⟩
      · obtain ⟨elem, among, member⟩ := List.mem_flatMap.1 member
        exact ih elem among owns member
  | @loop _ _ _ loop part noted nested head heads whole fits ih =>
      rw [Tree.nodes, List.mem_cons] at member
      rcases member with rfl | member
      · exact ⟨_, owns, .loop part noted nested head heads whole fits⟩
      · exact ih (owns_some (owns.mem_all (Loop.mem_flattenAll_of_mem nested))) member
  | merge part noted heads several isEntry incoming_iff leaves fits ih =>
      rw [Tree.nodes, List.mem_cons, Tree.nodesOfAll_eq] at member
      rcases member with rfl | member
      · exact ⟨_, owns, .merge part noted heads several isEntry incoming_iff leaves fits⟩
      · obtain ⟨elem, among, member⟩ := List.mem_flatMap.1 member
        exact ih elem among owns member

/-! ## Loop nodes -/

/-- The heads of loop nodes, as the list of all nodes has them. -/
theorem Fits.map_fst_nestings (fits : Fits graph forest NotedAs around tree)
    (outer : Option BlockId) :
    (tree.nestings outer).map Prod.fst = tree.nodes.filterMap Tree.loopHead? := by
  have all {trees : List Tree} {outer : Option BlockId}
      (each : ∀ tree ∈ trees, (tree.nestings outer).map Prod.fst =
        tree.nodes.filterMap Tree.loopHead?) :
      (Tree.nestingsOfAll outer trees).map Prod.fst =
        (Tree.nodesOfAll trees).filterMap Tree.loopHead? := by
    induction trees with
    | nil => simp [Tree.nestingsOfAll, Tree.nodesOfAll]
    | cons first rest ih =>
        rw [Tree.nestingsOfAll, Tree.nodesOfAll, List.map_append, List.filterMap_append,
          each first (by simp), ih fun tree member => each tree (List.mem_cons_of_mem _ member)]
  induction fits generalizing outer with
  | jump => simp [Tree.nestings, Tree.nodes, Tree.loopHead?]
  | @conditional _ _ left right _ _ _ _ _ _ _ _ _ _ _ _ _ takenIh notTakenIh =>
      have arm {arm : Arm} (ih : ∀ tree, arm = .nested tree → ∀ outer,
          (tree.nestings outer).map Prod.fst = tree.nodes.filterMap Tree.loopHead?) :
          (Tree.nestingsOfArm outer arm).map Prod.fst =
            (Tree.nodesOfArm arm).filterMap Tree.loopHead? := by
        cases arm with
        | jump => simp [Tree.nestingsOfArm, Tree.nodesOfArm]
        | nested inner => exact ih inner rfl outer
      rw [Tree.nestings, Tree.nodes, List.cons_append, List.filterMap_cons_none rfl,
        List.map_append, List.filterMap_append, arm takenIh, arm notTakenIh]
  | sequence _ _ _ _ _ ih =>
      rw [Tree.nestings, Tree.nodes, List.filterMap_cons_none rfl]
      exact all fun tree member => ih tree member outer
  | loop _ _ _ _ _ _ _ ih =>
      rw [Tree.nestings, Tree.nodes, List.filterMap_cons, List.map_cons, ih]
      rfl
  | merge _ _ _ _ _ _ _ _ ih =>
      rw [Tree.nestings, Tree.nodes, List.filterMap_cons_none rfl]
      exact all fun tree member => ih tree member outer

/-- A block of a region that is a head is that of no loop inside. -/
theorem Fits.direct_head (isOf : forest.IsOf graph) (owns : forest.Owns around)
    (fits : Fits graph forest NotedAs around tree) {id : BlockId} (member : id ∈ tree.blocks)
    (direct : forest.innermost? id = around) :
    ∀ loop ∈ Loop.flattenAll (forest.inside around), loop.head ≠ id := by
  rintro loop nested rfl
  have known := isOf.blocksOf_known owns (fits.part.inside _ member)
  have outside := ((isOf.innermost?_eq_iff owns known).1 direct).2
  have isLoop := owns.mem_all nested
  exact not_nested_of_direct isOf owns outside
    (isOf.entry_mem_body isLoop (isOf.head_mem isLoop)) nested

/-- The loop nodes of a tree are those of the loops whose heads it holds, each around by the loop
node of its parent. -/
theorem Fits.mem_nestings_iff (isOf : forest.IsOf graph) (owns : forest.Owns around)
    (fits : Fits graph forest NotedAs around tree) {head : BlockId} {outer : Option BlockId} :
    (head, outer) ∈ tree.nestings (around.map Loop.head) ↔
      ∃ loop ∈ Loop.flattenAll (forest.inside around), loop.head ∈ tree.blocks ∧
        loop.head = head ∧ (forest.parent? loop).map Loop.head = outer := by
  induction fits with
  | @jump _ label part noted direct straight leaves =>
      have none :=
        (Fits.jump part noted direct straight leaves).direct_head isOf owns (by simp) direct
      simp only [Tree.nestings, List.not_mem_nil, Tree.blocks_jump, List.mem_singleton, false_iff,
        not_exists, not_and]
      exact fun loop nested same => absurd same (none loop nested)
  | @conditional around label left right one two part noted direct branching edges takenArm
      notTakenArm takenLeaves notTakenLeaves takenFits notTakenFits takenIh notTakenIh =>
      have none := (Fits.conditional part noted direct branching edges takenArm notTakenArm
        takenLeaves notTakenLeaves takenFits notTakenFits).direct_head isOf owns (by simp) direct
      have arm {arm : Arm} (ih : ∀ tree, arm = .nested tree → forest.Owns around →
          ((head, outer) ∈ tree.nestings (around.map Loop.head) ↔
            ∃ loop ∈ Loop.flattenAll (forest.inside around), loop.head ∈ tree.blocks ∧
              loop.head = head ∧ (forest.parent? loop).map Loop.head = outer)) :
          (head, outer) ∈ Tree.nestingsOfArm (around.map Loop.head) arm ↔
            ∃ loop ∈ Loop.flattenAll (forest.inside around),
              loop.head ∈ Tree.blocksOfArm arm ∧ loop.head = head ∧
              (forest.parent? loop).map Loop.head = outer := by
        cases arm with
        | jump => simp [Tree.nestingsOfArm, Tree.blocksOfArm]
        | nested inner => exact ih inner rfl owns
      rw [Tree.nestings, List.mem_append, arm takenIh, arm notTakenIh, ← exists_or]
      refine exists_congr fun loop => ?_
      rw [← and_or_left]
      refine and_congr_right fun nested => ?_
      rw [← or_and_right, Tree.blocks_conditional, List.mem_cons, List.mem_append,
        or_iff_right (none loop nested)]
  | sequence part noted chain flat fits ih =>
      rw [Tree.nestings, Tree.nestingsOfAll_eq, Tree.blocks_sequence]
      simp only [List.mem_flatMap]
      constructor
      · rintro ⟨elem, among, member⟩
        obtain ⟨loop, nested, holds, rest⟩ := (ih elem among owns).1 member
        exact ⟨loop, nested, ⟨elem, among, holds⟩, rest⟩
      · rintro ⟨loop, nested, ⟨elem, among, holds⟩, rest⟩
        exact ⟨elem, among, (ih elem among owns).2 ⟨loop, nested, holds, rest⟩⟩
  | @loop around label body loop part noted nested same heads whole fits ih =>
      have isLoop := owns.mem_all (Loop.mem_flattenAll_of_mem nested)
      have isNested := isOf.entry_mem_body isLoop (isOf.head_mem isLoop)
      rw [Tree.nestings, List.mem_cons, same]
      rw [show some loop.head = (some loop).map Loop.head from rfl, ih (owns_some isLoop),
        Tree.blocks_loop]
      have parent := isOf.parent?_eq owns nested
      constructor
      · rintro (here | ⟨inner, within, rest⟩)
        · obtain ⟨rfl, rfl⟩ := Prod.mk.inj here
          exact ⟨loop, Loop.mem_flattenAll_of_mem nested, (whole _).2 isNested, rfl,
            by rw [parent]⟩
        · exact ⟨inner, Loop.mem_flattenAll_of_inner (Loop.mem_flattenAll_of_mem nested) within,
            rest⟩
      · rintro ⟨other, within, holds, rfl, rfl⟩
        have isOther := owns.mem_all within
        have inOther := isOf.entry_mem_body isOther (isOf.head_mem isOther)
        rcases isOf.position isLoop isOther ((whole _).1 holds) inOther with rfl | inner | outer
        · exact .inl (by rw [parent])
        · exact .inr ⟨other, inner, holds, rfl, rfl⟩
        · -- The region around a loop directly nested in it has no loop around that one.
          obtain ⟨first, among, within⟩ := Loop.mem_flattenAll.1 within
          have isFirst := owns.mem_all (Loop.mem_flattenAll_of_mem among)
          have inFirst : other.head ∈ first.body := by
            rcases Loop.mem_flatten.1 within with rfl | within
            · exact inOther
            · exact (isOf.nested_body isFirst within inOther).1
          have equal := (isOf.split_inside owns).eq_of_mem nested among ((whole _).1 holds) inFirst
          subst equal
          have before := isOf.id_lt isOther outer
          rcases Loop.mem_flatten.1 within with rfl | within
          · omega
          · have after := isOf.id_lt isLoop within
            omega
  | merge part noted heads several isEntry incoming_iff leaves fits ih =>
      rw [Tree.nestings, Tree.nestingsOfAll_eq, Tree.blocks_merge]
      simp only [List.mem_flatMap]
      constructor
      · rintro ⟨elem, among, member⟩
        obtain ⟨loop, nested, holds, rest⟩ := (ih elem among owns).1 member
        exact ⟨loop, nested, ⟨elem, among, holds⟩, rest⟩
      · rintro ⟨loop, nested, ⟨elem, among, holds⟩, rest⟩
        exact ⟨elem, among, (ih elem among owns).2 ⟨loop, nested, holds, rest⟩⟩

/-- The head of a loop that is nested is a block of the tree. -/
theorem Fits.mem_blocks_of_nestings (isOf : forest.IsOf graph) (owns : forest.Owns around)
    (fits : Fits graph forest NotedAs around tree) {head : BlockId}
    (member : head ∈ (tree.nestings (around.map Loop.head)).map Prod.fst) : head ∈ tree.blocks := by
  obtain ⟨⟨_, outer⟩, among, rfl⟩ := List.mem_map.1 member
  obtain ⟨loop, -, holds, rfl, -⟩ := (fits.mem_nestings_iff isOf owns).1 among
  exact holds

/-- No loop has two loop nodes. -/
theorem Fits.nodup_nestings (isOf : forest.IsOf graph) (owns : forest.Owns around)
    (fits : Fits graph forest NotedAs around tree) :
    ((tree.nestings (around.map Loop.head)).map Prod.fst).Nodup := by
  have all {around : Option Loop} (owns : forest.Owns around) {trees : List Tree}
      (distinct : (trees.flatMap Tree.blocks).Nodup)
      (fits : ∀ tree ∈ trees, Fits graph forest NotedAs around tree)
      (each : ∀ tree ∈ trees, ((tree.nestings (around.map Loop.head)).map Prod.fst).Nodup) :
      ((Tree.nestingsOfAll (around.map Loop.head) trees).map Prod.fst).Nodup := by
    rw [Tree.nestingsOfAll_eq, List.map_flatMap, List.nodup_flatMap]
    refine ⟨each, (List.nodup_flatMap.1 distinct).2.imp_of_mem fun {one two} left right apart => ?_⟩
    exact List.disjoint_left.2 fun head here there => List.disjoint_left.1 apart
      ((fits one left).mem_blocks_of_nestings isOf owns here)
      ((fits two right).mem_blocks_of_nestings isOf owns there)
  induction fits with
  | jump => simp [Tree.nestings]
  | @conditional around label left right _ _ part _ _ _ _ _ _ _ _ takenFits notTakenFits takenIh
      notTakenIh =>
      have arm {arm : Arm}
          (fits : ∀ tree, arm = .nested tree → Fits graph forest NotedAs around tree)
          (ih : ∀ tree, arm = .nested tree → forest.Owns around →
            ((tree.nestings (around.map Loop.head)).map Prod.fst).Nodup) :
          ((Tree.nestingsOfArm (around.map Loop.head) arm).map Prod.fst).Nodup ∧
            ∀ head ∈ (Tree.nestingsOfArm (around.map Loop.head) arm).map Prod.fst,
              head ∈ Tree.blocksOfArm arm := by
        cases arm with
        | jump => simp [Tree.nestingsOfArm]
        | nested inner => exact ⟨ih inner rfl owns, fun head member =>
            (fits inner rfl).mem_blocks_of_nestings isOf owns member⟩
      have distinct := part.distinct
      rw [Tree.blocks_conditional, List.nodup_cons, List.nodup_append'] at distinct
      rw [Tree.nestings, List.map_append, List.nodup_append']
      obtain ⟨once, inLeft⟩ := arm takenFits takenIh
      obtain ⟨once', inRight⟩ := arm notTakenFits notTakenIh
      exact ⟨once, once', List.disjoint_left.2 fun head here there =>
        List.disjoint_left.1 distinct.2.2.2 (inLeft head here) (inRight head there)⟩
  | sequence part _ _ _ fits ih =>
      rw [Tree.nestings]
      exact all owns (Tree.blocks_sequence ▸ part.distinct) fits fun tree member =>
        ih tree member owns
  | @loop _ label body loop part noted nested same heads whole fits ih =>
      have isLoop := owns.mem_all (Loop.mem_flattenAll_of_mem nested)
      rw [Tree.nestings, List.map_cons, List.nodup_cons, same]
      refine ⟨fun member => ?_, ih (owns_some isLoop)⟩
      obtain ⟨⟨_, outer⟩, among, equal⟩ := List.mem_map.1 member
      obtain ⟨inner, within, -, isHead, -⟩ :=
        (fits.mem_nestings_iff isOf (owns_some isLoop)).1 among
      have isInner := (owns_some isLoop).mem_all within
      have outside := (isOf.nested_body isLoop within
        (isOf.entry_mem_body isInner (isOf.head_mem isInner))).2
      have back : inner.head = loop.head := isHead.trans equal
      exact outside (back ▸ isOf.head_mem isLoop)
  | merge part _ _ _ _ _ _ fits ih =>
      rw [Tree.nestings]
      exact all owns (Tree.blocks_merge ▸ part.distinct) fits fun tree member =>
        ih tree member owns

/-! ## The whole tree -/

/-- Of values without repetition each comes from one place of the list. -/
theorem exists_filter_eq_singleton {α β : Type} [DecidableEq β] {list : List α}
    {value? : α → Option β} (distinct : (list.filterMap value?).Nodup) {value : β}
    (member : value ∈ list.filterMap value?) :
    ∃ a, value? a = some value ∧ list.filter (fun a => value? a = some value) = [a] := by
  induction list with
  | nil => cases member
  | cons first rest ih =>
      cases here : value? first with
      | none =>
          rw [List.filterMap_cons_none here] at distinct member
          obtain ⟨a, found, list⟩ := ih distinct member
          exact ⟨a, found, by simp [here, list]⟩
      | some other =>
          rw [List.filterMap_cons_some here] at distinct member
          obtain ⟨fresh, distinctRest⟩ := List.nodup_cons.1 distinct
          by_cases same : other = value
          · subst same
            refine ⟨first, here, ?_⟩
            have none : rest.filter (fun a => value? a = some other) = [] := by
              rw [List.filter_eq_nil_iff]
              intro a among
              simpa using fun found => fresh (List.mem_filterMap.2 ⟨a, among, found⟩)
            simp [here, none]
          · obtain ⟨a, found, list⟩ := ih distinctRest
              ((List.mem_cons.1 member).resolve_left (Ne.symm same))
            exact ⟨a, found, by simp [here, same, list]⟩

/-- A node is a conditional if its own block branches. -/
theorem Fits.isConditional_of_ownBlock? (fits : Fits graph forest NotedAs around tree)
    {id : BlockId}
    (own : tree.ownBlock? = some id) : tree.isConditional = graph.isBranching id := by
  cases fits with
  | jump part noted direct straight leaves =>
      obtain rfl := Option.some.inj own
      exact straight.symm
  | conditional part noted direct branching =>
      obtain rfl := Option.some.inj own
      exact branching.symm
  | sequence | loop | merge => cases own

/-- The node of a loop has the blocks of the loop. -/
theorem Fits.blocks_of_loopHead? (isOf : forest.IsOf graph) (owns : forest.Owns around)
    (fits : Fits graph forest NotedAs around tree) {loop : Loop} (known : loop ∈ forest.all)
    (isHead : tree.loopHead? = some loop.head) : ∀ id, id ∈ tree.blocks ↔ id ∈ loop.body := by
  cases fits with
  | jump | conditional | sequence | merge => cases isHead
  | @loop _ label body other part noted nested same heads whole fits =>
      have isOther := owns.mem_all (Loop.mem_flattenAll_of_mem nested)
      have equal : other = loop :=
        isOf.eq_of_head isOther known (same.symm.trans (Option.some.inj isHead))
      intro id
      rw [Tree.blocks_loop, whole, equal]

end Nesting

/-- Every graph built from a list of blocks is structured; every block is the head of one node for a
block, a conditional exactly if it branches; every loop has one loop node, with exactly the blocks
of its body in it; and loop nodes lie in each other as the loops have parents. -/
theorem BlockGraph.exists_structured_once {entry : BlockId} {blocks : List Block}
    {graph : BlockGraph} (built : BlockGraph.ofBlocks entry blocks = .ok graph) :
    ∃ found, graph.toStructured = .ok found ∧ LoopForest.ofGraph graph = .ok found.forest ∧
      (∀ id ∈ graph.ids, ∃ node,
        found.root.nodes.filter (fun node => node.ownBlock? = some id) = [node] ∧
          node.isConditional = graph.isBranching id) ∧
      (∀ node ∈ found.root.nodes, ∀ id, node.ownBlock? = some id → id ∈ graph.ids) ∧
      (∀ loop ∈ found.forest.all, ∃ node,
        found.root.nodes.filter (fun node => node.loopHead? = some loop.head) = [node] ∧
          ∀ id, id ∈ node.blocks ↔ id ∈ loop.body) ∧
      (found.root.nestings none).Perm
        (found.forest.all.map fun loop =>
          (loop.head, (found.forest.parent? loop).map Loop.head)) := by
  have checked := checked_ofBlocks built
  obtain ⟨found, made, search, isFound⟩ := checked.exists_toStructured
  have isOf := isFound.isOf
  have owns : found.forest.Owns none := owns_none
  have fits := isFound.fits
  refine ⟨found, made, search, fun id known => ?_, fun node member id own => ?_,
    fun loop known => ?_, ?_⟩
  · obtain ⟨node, own, list⟩ :=
      exists_filter_eq_singleton fits.part.distinct ((isFound.whole id).2 known)
    have member : node ∈ found.root.nodes :=
      List.mem_of_mem_filter (list ▸ List.mem_singleton_self node)
    obtain ⟨region, -, fitsNode⟩ := fits.of_mem_nodes owns member
    exact ⟨node, list, fitsNode.isConditional_of_ownBlock? own⟩
  · exact (isFound.whole id).1 (List.mem_filterMap.2 ⟨node, member, own⟩)
  · have isHead : loop.head ∈ (found.root.nestings none).map Prod.fst := by
      have inside := isOf.entry_mem_body known (isOf.head_mem known)
      exact List.mem_map.2 ⟨_, (fits.mem_nestings_iff isOf owns).2
        ⟨loop, known, (isFound.whole _).2 (isOf.mem_ids known inside), rfl, rfl⟩, rfl⟩
    have distinct := fits.nodup_nestings isOf owns
    rw [fits.map_fst_nestings] at isHead distinct
    obtain ⟨node, same, list⟩ := exists_filter_eq_singleton distinct isHead
    have member : node ∈ found.root.nodes :=
      List.mem_of_mem_filter (list ▸ List.mem_singleton_self node)
    obtain ⟨region, ownsRegion, fitsNode⟩ := fits.of_mem_nodes owns member
    exact ⟨node, list, fitsNode.blocks_of_loopHead? isOf ownsRegion known same⟩
  · refine (List.perm_ext_iff_of_nodup (.of_map _ (fits.nodup_nestings isOf owns)) ?_).2 ?_
    · refine List.Nodup.of_map Prod.fst ?_
      rw [List.map_map, List.Nodup, List.pairwise_map]
      refine isOf.ids_increasing.imp_of_mem fun {one two} left right before same => ?_
      rw [isOf.eq_of_head left right same] at before
      exact Nat.lt_irrefl _ before
    · rintro ⟨head, outer⟩
      refine (fits.mem_nestings_iff isOf owns).trans ?_
      simp only [List.mem_map, Prod.mk.injEq]
      constructor
      · rintro ⟨loop, known, -, rest⟩
        exact ⟨loop, known, rest⟩
      · rintro ⟨loop, known, rest⟩
        have inside := isOf.entry_mem_body known (isOf.head_mem known)
        exact ⟨loop, known, (isFound.whole _).2 (isOf.mem_ids known inside), rest⟩

/-- A block that may run itself again, between the entry and a return. -/
def spinningBlocks : List Block :=
  [⟨⟨0⟩, [], [⟨1⟩]⟩, ⟨⟨1⟩, [.branch .nondet], [⟨1⟩, ⟨2⟩]⟩, ⟨⟨2⟩, [.ret none], []⟩]

/-- A spinning graph is structured with a node for each of its loops. -/
theorem BlockGraph.exists_structured_once_spinning : ∃ graph found,
    BlockGraph.ofBlocks ⟨0⟩ spinningBlocks = .ok graph ∧ graph.toStructured = .ok found ∧
      LoopForest.ofGraph graph = .ok found.forest := by
  have built : BlockGraph.ofBlocks ⟨0⟩ spinningBlocks = .ok _ := rfl
  obtain ⟨found, made, search, -⟩ := BlockGraph.exists_structured_once built
  exact ⟨_, found, built, made, search⟩

end GotoFree
