import GotoFree.Proofs.WaysOut

/-!
# Where a tree jumps

Code is made for a way out of a block at one place only: the node of the block, if it jumps, or the
arm of a conditional that does not hold its target. Each way out of a block has exactly one such
place (`jumpSites`), or it is the way into a part that an arm holds (`Fits.mem_jumpSites_or`). Such
a way stays in the loops around it and runs none of them again, and where it leads to an entry of a
loop, the loop has no other one (`Inlines.eq_of_entry`).
-/

namespace GotoFree

open LoopForest

/-! ## Places -/

/-- The coordinate of an arm that jumps. -/
def Arm.site? : Arm → Option Coord
  | .jump coord _ => some coord
  | .nested _ => none

/-- A coordinate along which control enters the part that an arm holds. -/
def Arm.inlined? (coord : Coord) : Arm → Option Coord
  | .jump .. => none
  | .nested _ => some coord

namespace Tree

/-- The coordinates along which control jumps at the node itself. -/
def ownSites : Tree → List Coord
  | jump _ coord => [coord]
  | conditional _ taken notTaken => taken.site?.toList ++ notTaken.site?.toList
  | sequence .. | loop .. | merge .. => []

/-- The coordinates along which control goes on in an arm of the node. -/
def ownInlined : Tree → List Coord
  | conditional label taken notTaken =>
      (taken.inlined? ⟨label.head, .taken⟩).toList ++
        (notTaken.inlined? ⟨label.head, .notTaken⟩).toList
  | jump .. | sequence .. | loop .. | merge .. => []

/-- The coordinates of the nodes and arms of a tree that jump. -/
def jumpSites (tree : Tree) : List Coord := tree.nodes.flatMap ownSites

/-- The coordinates of the arms of a tree that hold their target. -/
def inlinedWays (tree : Tree) : List Coord := tree.nodes.flatMap ownInlined

/-- A jump stands in a tree if it stands in one of its nodes. -/
theorem mem_jumpSites {tree : Tree} {coord : Coord} :
    coord ∈ tree.jumpSites ↔ ∃ node ∈ tree.nodes, coord ∈ node.ownSites :=
  List.mem_flatMap

/-- A tree within another one has no other jumps. -/
theorem jumpSites_subset {tree outer : Tree} (inside : tree.nodes ⊆ outer.nodes) :
    tree.jumpSites ⊆ outer.jumpSites := by
  intro coord member
  obtain ⟨node, among, here⟩ := mem_jumpSites.1 member
  exact mem_jumpSites.2 ⟨node, inside among, here⟩

/-- A tree within another one has no other blocks. -/
theorem blocks_subset {tree outer : Tree} (inside : tree.nodes ⊆ outer.nodes) :
    tree.blocks ⊆ outer.blocks := by
  intro id member
  obtain ⟨node, among, own⟩ := List.mem_filterMap.1 member
  exact List.mem_filterMap.2 ⟨node, inside among, own⟩

theorem mem_nodes_self (tree : Tree) : tree ∈ tree.nodes := by
  cases tree <;> simp [nodes]

/-- The tree of an arm is within its conditional. -/
theorem nodes_subset_taken {label : Label} {tree : Tree} {notTaken : Arm} :
    tree.nodes ⊆ (conditional label (.nested tree) notTaken).nodes := by
  intro node member
  simp [nodes, nodesOfArm, member]

theorem nodes_subset_notTaken {label : Label} {taken : Arm} {tree : Tree} :
    tree.nodes ⊆ (conditional label taken (.nested tree)).nodes := by
  intro node member
  simp [nodes, nodesOfArm, member]

theorem nodes_subset_all {trees : List Tree} {tree : Tree} (among : tree ∈ trees) :
    tree.nodes ⊆ nodesOfAll trees := by
  intro node member
  rw [nodesOfAll_eq]
  exact List.mem_flatMap.2 ⟨tree, among, member⟩

/-- Each element is within its sequence. -/
theorem nodes_subset_sequence {label : Label} {elems : List Tree} {tree : Tree}
    (among : tree ∈ elems) : tree.nodes ⊆ (sequence label elems).nodes := by
  rw [nodes]
  exact List.subset_cons_of_subset _ (nodes_subset_all among)

/-- The body is within its loop. -/
theorem nodes_subset_loop {label : Label} {entries : SortedSet BlockId} {body : Tree} :
    body.nodes ⊆ (loop label entries body).nodes := by
  rw [nodes]
  exact List.subset_cons_self _ _

/-- Each alternative is within its merge. -/
theorem nodes_subset_merge {label : Label} {alternatives : List Tree} {incoming : Incoming}
    {tree : Tree} (among : tree ∈ alternatives) :
    tree.nodes ⊆ (merge label alternatives incoming).nodes := by
  rw [nodes]
  exact List.subset_cons_of_subset _ (nodes_subset_all among)

end Tree

/-- A way out of a block of a tree into a part that an arm of the block's node holds. -/
structure Inlines (graph : BlockGraph) (forest : LoopForest)
    (NotedAs : Option Loop → Tree → Prop) (region : Option Loop) (tree : Tree) (coord : Coord)
    (target : BlockId) (inner : Tree) : Prop where
  owns : forest.Owns region
  direct : forest.innermost? coord.block = region
  plain : Plain graph forest coord target
  heads : inner.heads = .singleton target
  inside : inner.nodes ⊆ tree.nodes
  fits : Fits graph forest NotedAs region inner

section Sites

variable {graph : BlockGraph} {forest : LoopForest} {NotedAs : Option Loop → Tree → Prop}
  {around region : Option Loop} {tree inner : Tree} {coord : Coord} {target : BlockId}

/-- A target that is nested in a tree is nested in a bigger one. -/
theorem Inlines.mono {outer : Tree}
    (inlines : Inlines graph forest NotedAs region tree coord target inner)
    (inside : tree.nodes ⊆ outer.nodes) :
    Inlines graph forest NotedAs region outer coord target inner :=
  { inlines with inside := List.Subset.trans inlines.inside inside }

/-- A nested target is in the part that it begins. -/
theorem Inlines.target_mem
    (inlines : Inlines graph forest NotedAs region tree coord target inner) :
    target ∈ inner.blocks :=
  inlines.fits.part.heads_mem target (inlines.heads ▸ SortedSet.mem_singleton.2 rfl)

/-! ## One place for each way out -/

/-- The places of a node are those of the ways out of its block, without repetition. -/
theorem Fits.ownSites_spec (fits : Fits graph forest NotedAs around tree) :
    (∀ coord ∈ tree.ownSites ++ tree.ownInlined, tree.ownBlock? = some coord.block) ∧
      (tree.ownSites ++ tree.ownInlined).Nodup := by
  cases fits with
  | jump => simp [Tree.ownSites, Tree.ownInlined, Tree.ownBlock?]
  | conditional _ _ _ _ _ takenArm notTakenArm =>
      cases takenArm <;> cases notTakenArm <;>
        simp [Tree.ownSites, Tree.ownInlined, Tree.ownBlock?, Arm.site?, Arm.inlined?]
  | sequence | loop | merge => simp [Tree.ownSites, Tree.ownInlined]

/-- No way out of a block has two places in a tree, and none that an arm holds has one. -/
theorem Fits.nodup_sites (fits : Fits graph forest NotedAs around tree)
    (owns : forest.Owns around) : (tree.jumpSites ++ tree.inlinedWays).Nodup := by
  refine (List.flatMap_append_perm tree.nodes Tree.ownSites Tree.ownInlined).nodup_iff.2 ?_
  have spec {node : Tree} (member : node ∈ tree.nodes) :
      (∀ coord ∈ node.ownSites ++ node.ownInlined, node.ownBlock? = some coord.block) ∧
        (node.ownSites ++ node.ownInlined).Nodup := by
    obtain ⟨region, -, fitsNode⟩ := fits.of_mem_nodes owns member
    exact fitsNode.ownSites_spec
  refine List.nodup_flatMap.2 ⟨fun node member => (spec member).2, ?_⟩
  -- Different nodes stand for different blocks.
  refine (List.pairwise_filterMap.1 fits.part.distinct).imp_of_mem fun {one two} left right apart =>
    List.disjoint_left.2 fun coord here there => ?_
  exact apart _ ((spec left).1 coord here) _ ((spec right).1 coord there) rfl

/-- Each way out of a block of a tree has its place there, or goes on in an arm. -/
theorem Fits.mem_jumpSites_or (checked : graph.Checked)
    (fits : Fits graph forest NotedAs around tree) (owns : forest.Owns around)
    (way : graph.IsWay coord) (source : coord.block ∈ tree.blocks) :
    coord ∈ tree.jumpSites ∨ ∃ region target inner,
      Inlines graph forest NotedAs region tree coord target inner := by
  have widen {one two : Tree} (inside : one.nodes ⊆ two.nodes) (found : coord ∈ one.jumpSites ∨
      ∃ region target inner, Inlines graph forest NotedAs region one coord target inner) :
      coord ∈ two.jumpSites ∨
        ∃ region target inner, Inlines graph forest NotedAs region two coord target inner :=
    found.imp (fun here => Tree.jumpSites_subset inside here)
      fun ⟨region, target, inner, inlines⟩ => ⟨region, target, inner, inlines.mono inside⟩
  induction fits with
  | @jump _ label part noted direct straight leaves =>
      rw [Tree.blocks_jump, List.mem_singleton] at source
      have last : coord.branch = .exit := by
        rcases way with ⟨target, edge⟩ | ⟨last, -⟩
        · exact checked.branch_eq_exit (source ▸ straight) edge
        · exact last
      refine .inl (Tree.mem_jumpSites.2 ⟨_, Tree.mem_nodes_self _, ?_⟩)
      simp only [Tree.ownSites, List.mem_singleton, ← source, ← last]
  | @conditional around label taken notTaken takenTarget notTakenTarget part noted direct branching
      edges takenArm notTakenArm takenLeaves notTakenLeaves takenFits notTakenFits takenIh
      notTakenIh =>
      have self := Tree.mem_nodes_self (.conditional label taken notTaken)
      rw [Tree.blocks_conditional, List.mem_cons, List.mem_append] at source
      rcases source with here | inTaken | inNotTaken
      · have sides : coord = ⟨label.head, .taken⟩ ∨ coord = ⟨label.head, .notTaken⟩ := by
          rcases way with ⟨target, edge⟩ | ⟨-, returning⟩
          · rw [BlockGraph.HasEdge, here, edges] at edge
            exact (List.mem_pair.1 edge).imp (congrArg Prod.fst) (congrArg Prod.fst)
          · have none := checked.outEdges_of_isReturning returning
            simp [here, edges] at none
        rcases sides with rfl | rfl
        · cases takenArm with
          | jump => exact .inl (Tree.mem_jumpSites.2 ⟨_, self, by simp [Tree.ownSites, Arm.site?]⟩)
          | @nested inner plain heads =>
              exact .inr ⟨around, takenTarget, inner, owns, direct, plain, heads,
                Tree.nodes_subset_taken, takenFits inner rfl⟩
        · cases notTakenArm with
          | jump => exact .inl (Tree.mem_jumpSites.2 ⟨_, self, by simp [Tree.ownSites, Arm.site?]⟩)
          | @nested inner plain heads =>
              exact .inr ⟨around, notTakenTarget, inner, owns, direct, plain, heads,
                Tree.nodes_subset_notTaken, notTakenFits inner rfl⟩
      · cases taken with
        | jump => cases inTaken
        | nested inner => exact widen Tree.nodes_subset_taken (takenIh inner rfl owns inTaken)
      · cases notTaken with
        | jump => cases inNotTaken
        | nested inner =>
            exact widen Tree.nodes_subset_notTaken (notTakenIh inner rfl owns inNotTaken)
  | sequence part noted chain flat fits ih =>
      rw [Tree.blocks_sequence] at source
      obtain ⟨elem, among, here⟩ := List.mem_flatMap.1 source
      exact widen (Tree.nodes_subset_sequence among) (ih elem among owns here)
  | loop part noted nested head heads whole fits ih =>
      have inner := owns_some (owns.mem_all (Loop.mem_flattenAll_of_mem nested))
      exact widen Tree.nodes_subset_loop (ih inner (Tree.blocks_loop ▸ source))
  | merge part noted heads several isEntry incoming_iff leaves fits ih =>
      rw [Tree.blocks_merge] at source
      obtain ⟨elem, among, here⟩ := List.mem_flatMap.1 source
      exact widen (Tree.nodes_subset_merge among) (ih elem among owns here)

/-- A way out that leaves a tree or continues a loop has its place in the tree. -/
theorem Fits.mem_jumpSites_of_leaves (checked : graph.Checked)
    (fits : Fits graph forest NotedAs around tree) (owns : forest.Owns around)
    (way : graph.IsWay coord) (leaves : Leaves graph forest tree.blocks coord) :
    coord ∈ tree.jumpSites := by
  rcases fits.mem_jumpSites_or checked owns way leaves.1 with here | ⟨_, target, inner, inlines⟩
  · exact here
  · exact absurd (Tree.blocks_subset inlines.inside inlines.target_mem)
      (leaves.2 target inlines.plain)

/-! ## What an arm may hold -/

/-- A jump that runs a loop again does not escape from it. -/
theorem Recurses.not_escapes (checked : graph.Checked) (recurses : Recurses graph forest coord) :
    ¬ Escapes graph forest coord := by
  obtain ⟨loop, continues, innermost⟩ := recurses
  rintro ⟨other, innermost', ⟨target, plain, -⟩ | ⟨again, continues', differ⟩⟩
  · exact plain.not_continues checked continues
  · cases innermost.symm.trans innermost'
    exact differ (continues'.unique checked continues)

/-- A jump to a nested target runs no loop again. -/
theorem Inlines.not_recurses (checked : graph.Checked)
    (inlines : Inlines graph forest NotedAs region tree coord target inner) :
    ¬ Recurses graph forest coord := fun ⟨_, continues, _⟩ =>
  inlines.plain.not_continues checked continues

/-- What an arm holds lies in the region of the arm. -/
theorem Inlines.not_escapes (checked : graph.Checked)
    (inlines : Inlines graph forest NotedAs region tree coord target inner) :
    ¬ Escapes graph forest coord := by
  rintro ⟨loop, innermost, ⟨other, plain, outside⟩ | ⟨other, continues, -⟩⟩
  · cases innermost.symm.trans inlines.direct
    rw [plain.unique checked inlines.plain] at outside
    exact outside (inlines.fits.part.inside _ inlines.target_mem)
  · exact inlines.plain.not_continues checked continues

/-- A part that is entered at a block of a loop directly nested in its region is entered at all
entries of the loop. -/
theorem Fits.entries_subset_heads (isOf : forest.IsOf graph) (owns : forest.Owns around)
    (fits : Fits graph forest NotedAs around tree) {loop : Loop}
    (nested : loop ∈ forest.inside around) {id : BlockId} (isHead : id ∈ tree.heads)
    (holds : id ∈ loop.body) : ∀ entry ∈ loop.entries, entry ∈ tree.heads := by
  have direct {head : BlockId} (known : head ∈ blocksOf graph around)
      (outside : forest.innermost? head = around) : head ∉ loop.body :=
    ((isOf.innermost?_eq_iff owns (isOf.blocksOf_known owns known)).1 outside).2 loop nested
  induction fits with
  | jump part noted outside =>
      rw [Tree.heads, SortedSet.mem_singleton] at isHead
      exact absurd (isHead ▸ holds) (direct (part.inside _ (by simp)) outside)
  | conditional part noted outside =>
      rw [Tree.heads, SortedSet.mem_singleton] at isHead
      exact absurd (isHead ▸ holds) (direct (part.inside _ (by simp)) outside)
  | sequence part noted chain flat fits ih =>
      rw [Tree.heads] at isHead ⊢
      exact ih _ List.mem_cons_self owns nested isHead direct
  | @loop _ _ _ other part noted among head heads whole fits =>
      have isOther := owns.mem_all (Loop.mem_flattenAll_of_mem among)
      have here := isOf.entry_mem_body isOther isHead
      cases (isOf.split_inside owns).eq_of_mem among nested here holds
      exact fun entry isEntry => isEntry
  | merge part noted heads several isEntry incoming_iff leaves fits ih =>
      obtain ⟨alternative, among, here⟩ := Tree.mem_headsOfAll.1 isHead
      exact fun entry isEntry => Tree.mem_headsOfAll.2
        ⟨alternative, among, ih alternative among owns nested here direct entry isEntry⟩

/-- An arm that holds an entry of a loop holds the only one. -/
theorem Inlines.eq_of_entry (isOf : forest.IsOf graph)
    (inlines : Inlines graph forest NotedAs region tree coord target inner) {loop : Loop}
    (known : loop ∈ forest.all) (isEntry : target ∈ loop.entries) :
    ∀ other ∈ loop.entries, other = target := by
  have owns := inlines.owns
  have inLoop := isOf.entry_mem_body known isEntry
  have inRegion := inlines.fits.part.inside _ inlines.target_mem
  -- The edge does not continue the loop, so the loop lies in the region of the arm.
  have outside : coord.block ∉ loop.body :=
    isOf.continued?_eq_none_iff.1 inlines.plain.2 loop known isEntry
  have within : loop ∈ Loop.flattenAll (forest.inside region) := by
    by_contra away
    obtain ⟨own, rfl, place⟩ := (isOf.not_nested_iff owns inRegion known inLoop).1 away
    have holds := (isOf.innermost?_eq_some_iff.1 inlines.direct).2.1
    rcases place with rfl | deeper
    · exact outside holds
    · exact outside (isOf.nested_body known deeper holds).1
  obtain ⟨outer, among, place⟩ := Loop.mem_flattenAll.1 within
  have isOuter := owns.mem_all (Loop.mem_flattenAll_of_mem among)
  have inOuter : target ∈ outer.body := by
    rcases Loop.mem_flatten.1 place with rfl | deeper
    · exact inLoop
    · exact (isOf.nested_body isOuter deeper inLoop).1
  have only : ∀ entry ∈ outer.entries, entry = target := fun entry among' => by
    have isHead : target ∈ inner.heads := inlines.heads ▸ SortedSet.mem_singleton.2 rfl
    have member := inlines.fits.entries_subset_heads isOf owns among isHead inOuter entry among'
    rwa [inlines.heads, SortedSet.mem_singleton] at member
  have entersOuter : target ∈ outer.entries :=
    only _ (isOf.head_mem isOuter) ▸ isOf.head_mem isOuter
  cases isOf.eq_of_entry known isOuter isEntry entersOuter
  exact only

end Sites

end GotoFree
