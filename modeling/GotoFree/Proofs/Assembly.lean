import GotoFree.Flow.Structure
import GotoFree.Proofs.Placement

/-!
# Assembling the tree of a region

Each kind of vertex is put together with what hangs under it: a block that is left in one way, a
branching block with the parts its arms hold, a nested loop, and the root above several entries.
So the whole dominator tree of a region becomes nodes that hold every block of the region once
(`exists_place`), and these become its tree (`exists_tree`).
-/

namespace GotoFree

open LoopForest

/-- What is known where the vertices of a region are put together. -/
structure Site.IsOf (site : Site) (graph : BlockGraph) (forest : LoopForest)
    (around : Option Loop) : Prop where
  graph_eq : site.graph = graph
  forest_eq : site.forest = forest
  view_eq : site.view = ⟨Region.of graph forest around,
    (Region.of graph forest around).rooted graph, (Region.of graph forest around).blockLinks graph⟩
  loops : ∀ loop ∈ forest.inside around, ∃ tree, site.loops.lookup loop.id = some tree ∧
    Fits graph forest Bare around tree ∧ tree.isSequence = false ∧ tree.heads = loop.entries ∧
    ∀ id, id ∈ tree.blocks ↔ id ∈ loop.body

/-- The nodes made of the subtrees that hang under a vertex, in the order of the view. -/
structure Children (graph : BlockGraph) (forest : LoopForest) (around : Option Loop)
    (top : Vertex) (placed : Site.Placed) : Prop where
  made : ∀ entry ∈ placed, ∃ first rest, entry.2 = first :: rest ∧
    Placed graph forest around entry.1 first rest
  keys : placed.map Prod.fst = ((Region.of graph forest around).rooted graph).order.filter
    fun other => ((Region.of graph forest around).rooted graph).idom? other = some top

section Assembly

variable {graph : BlockGraph} {forest : LoopForest} {around : Option Loop} {top : Vertex}
  {placed : Site.Placed}

namespace Children

variable (children : Children graph forest around top placed)

include children

/-- What has been placed hangs below the node. -/
theorem hang {entry : Vertex × List Tree} (member : entry ∈ placed) :
    ((Region.of graph forest around).rooted graph).idom? entry.1 = some top := by
  have among : entry.1 ∈ placed.map Prod.fst := List.mem_map_of_mem member
  rw [children.keys] at among
  simpa using List.of_mem_filter among

/-- The nodes have been placed in the order of the walk. -/
theorem increasing (ordered : ((Region.of graph forest around).rooted graph).Ordered) :
    placed.Pairwise fun first second =>
      ((Region.of graph forest around).rooted graph).position first.1 <
        ((Region.of graph forest around).rooted graph).position second.1 := by
  have sorted := ordered.increasing.sublist (List.filter_sublist
    (p := fun other => ((Region.of graph forest around).rooted graph).idom? other = some top))
  rw [← children.keys, List.pairwise_map] at sorted
  exact sorted

/-- No node is placed twice. -/
theorem distinct (ordered : ((Region.of graph forest around).rooted graph).Ordered) :
    (placed.map Prod.fst).Nodup := by
  rw [children.keys]
  exact ordered.nodup.filter _

/-- Every node that hangs below has been placed. -/
theorem exists_of_hangs (ordered : ((Region.of graph forest around).rooted graph).Ordered)
    {child : Vertex}
    (hangs : ((Region.of graph forest around).rooted graph).idom? child = some top) :
    ∃ elems, (child, elems) ∈ placed := by
  have known := (ordered.mem_dominated.1 (Rooted.Ordered.dominated_of_idom? hangs)).1
  have among : child ∈ placed.map Prod.fst := by
    rw [children.keys]
    exact List.mem_filter.2 ⟨known, decide_eq_true hangs⟩
  obtain ⟨⟨_, elems⟩, member, rfl⟩ := List.mem_map.1 among
  exact ⟨elems, member⟩

/-- A node is looked up as it was placed. -/
theorem lookup_eq_some_iff (ordered : ((Region.of graph forest around).rooted graph).Ordered)
    {child : Vertex} {elems : List Tree} :
    placed.lookup child = some elems ↔ (child, elems) ∈ placed := by
  have distinct := children.distinct ordered
  clear children
  induction placed with
  | nil => simp
  | cons entry rest ih =>
      obtain ⟨key, value⟩ := entry
      rw [List.map_cons, List.nodup_cons] at distinct
      rw [List.lookup_cons, List.mem_cons, Prod.mk.injEq]
      by_cases same : child = key
      · subst same
        have absent : (child, elems) ∉ rest := fun member =>
          distinct.1 (List.mem_map.2 ⟨_, member, rfl⟩)
        simp [absent, eq_comm]
      · simp [same, beq_false_of_ne same, ih distinct.2]

/-- What lies under a node is the node itself, or lies under one that hangs below it. -/
theorem under_iff (ordered : ((Region.of graph forest around).rooted graph).Ordered)
    {id : BlockId} : Under graph forest around top id ↔
      (id ∈ blocksOf graph around ∧ (Region.of graph forest around).vertexOf id = top) ∨
        ∃ entry ∈ placed, Under graph forest around entry.1 id := by
  simp only [Under, and_or_left, @Rooted.Ordered.below_iff _ _ _ ordered top]
  refine or_congr_right ?_
  constructor
  · rintro ⟨inside, child, hangs, below⟩
    obtain ⟨elems, member⟩ := children.exists_of_hangs ordered hangs
    exact ⟨_, member, inside, below⟩
  · rintro ⟨entry, member, inside, below⟩
    exact ⟨inside, entry.1, children.hang member, below⟩

/-- A block under a node that has been placed is in its elements. -/
theorem exists_of_under (ordered : ((Region.of graph forest around).rooted graph).Ordered)
    {child : Vertex}
    (hangs : ((Region.of graph forest around).rooted graph).idom? child = some top) {id : BlockId}
    (under : Under graph forest around child id) :
    ∃ entry ∈ placed, Under graph forest around entry.1 id := by
  obtain ⟨elems, member⟩ := children.exists_of_hangs ordered hangs
  exact ⟨_, member, under⟩

end Children

namespace LoopForest.IsOf

variable (checked : graph.Checked) (isOf : forest.IsOf graph) (owns : forest.Owns around)

include checked isOf owns

/-- A block of the node itself lies under none of those below it. -/
theorem not_under_of_vertexOf {child : Vertex}
    (hangs : ((Region.of graph forest around).rooted graph).idom? child = some top)
    {id : BlockId} (here : (Region.of graph forest around).vertexOf id = top) :
    ¬ Under graph forest around child id := fun under =>
  (isOf.ordered_rooted checked owns).not_below_of_idom? hangs (here ▸ under.2)

/-- No plain edge leads from what hangs under a vertex back to it. -/
theorem vertexOf_ne_of_plain {child : Vertex}
    (hangs : ((Region.of graph forest around).rooted graph).idom? child = some top)
    {coord : Coord} {target : BlockId} (plain : Plain graph forest coord target)
    (source : Under graph forest around child coord.block)
    (inside : target ∈ blocksOf graph around) :
    (Region.of graph forest around).vertexOf target ≠ top := by
  intro back
  rcases isOf.crossing_or_nested checked owns plain source.1 inside with
    crossing | ⟨loop, nested, here, there⟩
  · have rise := isOf.position_lt_of_crossing checked owns crossing
    have below := isOf.position_le_of_under checked owns
      (isOf.under_of_hangs checked owns hangs source)
    rw [back] at rise
    omega
  · have same := isOf.vertexOf_eq_of_mem owns nested here there
    exact isOf.not_under_of_vertexOf checked owns hangs (same.trans back) source

/-- A block that is a vertex lies in no nested loop. -/
theorem direct_of_vertex {id : BlockId}
    (member : Vertex.block id ∈ ((Region.of graph forest around).rooted graph).order) :
    id ∈ blocksOf graph around ∧ (Region.of graph forest around).vertexOf id = .block id ∧
      ∀ inner ∈ forest.inside around, id ∉ inner.body := by
  rcases (isOf.mem_order_iff checked owns).1 member with ⟨root, -⟩ | ⟨other, inside, vertex⟩
  · cases root
  · obtain ⟨rfl, direct⟩ := Region.vertexOf_eq_block.1 vertex
    exact ⟨inside, vertex, fun inner nested => direct inner (Region.inner_of ▸ nested)⟩

/-- The blocks that are vertices of a region are in no loop inside it. -/
theorem innermost?_of_vertex {id : BlockId}
    (member : Vertex.block id ∈ ((Region.of graph forest around).rooted graph).order) :
    forest.innermost? id = around := by
  obtain ⟨inside, -, direct⟩ := isOf.direct_of_vertex checked owns member
  exact (isOf.innermost?_eq_iff owns (isOf.blocksOf_known owns inside)).2 ⟨inside, direct⟩

/-- No plain edge leads from a block that is a vertex to itself. -/
theorem ne_of_plain {id : BlockId}
    (member : Vertex.block id ∈ ((Region.of graph forest around).rooted graph).order)
    {coord : Coord} {target : BlockId} (plain : Plain graph forest coord target)
    (source : coord.block = id) : target ≠ id := by
  rintro rfl
  obtain ⟨inside, -, direct⟩ := isOf.direct_of_vertex checked owns member
  rcases isOf.crossing_or_nested checked owns plain (source ▸ inside) inside with
    crossing | ⟨loop, nested, -, there⟩
  · exact ((mem_crossings_iff checked).1 crossing).2.2.2.2 (by rw [source])
  · exact direct loop nested there

/-! ## Blocks that are left in one way -/

/-- Behind the own node of a vertex, what was placed below it follows. -/
theorem follow_of_vertex {node : Tree} (children : Children graph forest around top placed)
    (holds : ∀ id, id ∈ node.blocks ↔
      id ∈ blocksOf graph around ∧ (Region.of graph forest around).vertexOf id = top)
    (inner : top ≠ .root) : Follow graph forest around top node placed where
  placed := children.made
  hang _ := children.hang
  increasing := children.increasing (isOf.ordered_rooted checked owns)
  cover id := by
    rw [children.under_iff (isOf.ordered_rooted checked owns), holds]
  apart entry member id here :=
    isOf.not_under_of_vertexOf checked owns (children.hang member) ((holds id).1 here).2
  ordered entry member coord target plain source back :=
    isOf.vertexOf_ne_of_plain checked owns (children.hang member) plain source
      ((holds target).1 back).1 ((holds target).1 back).2
  linked root := absurd root inner

/-- A block that does not branch is followed by all that was placed below it. -/
theorem exists_block_straight {site : Site} (isSite : site.IsOf graph forest around)
    {id : BlockId} (children : Children graph forest around (.block id) placed)
    (member : Vertex.block id ∈ ((Region.of graph forest around).rooted graph).order)
    (straight : graph.isBranching id = false) :
    ∃ first rest, site.block placed id = .ok (first :: rest) ∧
      Placed graph forest around (.block id) first rest := by
  obtain ⟨inside, vertex, direct⟩ := isOf.direct_of_vertex checked owns member
  have known := isOf.blocksOf_known owns inside
  have all : site.following placed [] = placed.flatMap Prod.snd := by
    simp [Site.following]
  -- The block is left along its exit alone.
  obtain ⟨jumps, made, sums⟩ : ∃ jumps, site.block placed id =
        .ok (.jump ⟨id, jumps, .none⟩ ⟨id, .exit⟩ :: placed.flatMap Prod.snd) ∧
      Sums graph forest around (fun way => way = ⟨id, .exit⟩) jumps := by
    have allowed : graph.requireBlocks (.singleton id) = .ok () :=
      BlockGraph.requireBlocks_ok fun other same => SortedSet.mem_singleton.1 same ▸ known
    unfold Site.block
    rw [isSite.graph_eq, allowed, ok_bind, all]
    rcases checked.outEdges_of_not_isBranching straight with none | ⟨target, one⟩
    · rw [none]
      exact ⟨_, rfl, Sums.endWay none⟩
    · rw [one]
      refine ⟨_, rfl, Sums.wayOut checked isOf owns isSite.forest_eq ?_ ?_ direct⟩
      · rw [isSite.view_eq, Region.blocks_of]
      · simp [BlockGraph.HasEdge, one]
  refine ⟨_, _, made, Follow.placed_node checked isOf owns
    (isOf.follow_of_vertex checked owns children ?_ (by simp)) (.jump ⟨?_, ?_, ?_, ?_, ?_, ?_⟩
      rfl (isOf.innermost?_of_vertex checked owns member) straight ⟨by simp, ?_⟩) rfl ?_ ?_⟩
  · intro other
    simp only [Tree.blocks_jump, List.mem_singleton]
    constructor
    · rintro rfl
      exact ⟨inside, vertex⟩
    · exact fun here => (Region.vertexOf_eq_block.1 here.2).1
  · simpa using inside
  · simp
  · simp [Tree.heads, Tree.head, Tree.label]
  · simp [Tree.heads]
  · intro coord target _ _ here
    simpa [Tree.heads] using here
  · refine sums.congr fun coord isWay => ?_
    simp only [Leaves, Tree.blocks_jump, List.mem_singleton]
    constructor
    · rintro rfl
      exact ⟨rfl, fun target plain => isOf.ne_of_plain checked owns member plain rfl⟩
    · rintro ⟨source, -⟩
      have exit : coord.branch = .exit := by
        rcases isWay with ⟨target, edge⟩ | ⟨exit, -⟩
        · exact checked.branch_eq_exit (source ▸ straight) edge
        · exact exit
      cases coord
      simp_all
  · intro target plain
    simpa using isOf.ne_of_plain checked owns member plain rfl
  · intro coord target edge outside under
    have same := isOf.vertexOf_of_enters checked owns (by simp) edge outside under
    simpa [Tree.heads] using (Region.vertexOf_eq_block.1 same).1
  · exact rfl

/-! ## Nested loops -/

/-- A loop is built around its body, and followed by what was placed below it. -/
theorem exists_loop {site : Site} (isSite : site.IsOf graph forest around) {number : Nat}
    (children : Children graph forest around (.loop number) placed)
    (member : Vertex.loop number ∈ ((Region.of graph forest around).rooted graph).order) :
    ∃ first rest, site.assemble placed (.loop number) = .ok (first :: rest) ∧
      Placed graph forest around (.loop number) first rest := by
  obtain ⟨loop, nested, rfl⟩ : ∃ loop ∈ forest.inside around, loop.id = number := by
    rcases (isOf.mem_order_iff checked owns).1 member with ⟨root, -⟩ | ⟨id, -, vertex⟩
    · cases root
    · rcases (Region.of graph forest around).vertexOf_cases id with
        ⟨block, -⟩ | ⟨loop, nested, -, same⟩
      · cases block.symm.trans vertex
      · cases same.symm.trans vertex
        exact ⟨loop, Region.inner_of ▸ nested, rfl⟩
  obtain ⟨tree, found, fits, flat, heads, whole⟩ := isSite.loops loop nested
  have isNested := (isOf.split_inside owns).nested loop nested
  refine ⟨tree, placed.flatMap Prod.snd, ?_, Follow.placed_node checked isOf owns
    (isOf.follow_of_vertex checked owns children ?_ (by simp)) fits flat ?_
    ⟨loop, nested, rfl, heads⟩⟩
  · simp [Site.assemble, found, Site.following]
  · intro id
    rw [whole, isOf.vertexOf_eq_loop owns nested]
    exact ⟨fun holds => ⟨isNested.inside id holds, holds⟩, fun both => both.2⟩
  · intro coord target edge outside under
    have same := isOf.vertexOf_of_enters checked owns (by simp) edge outside under
    rw [isOf.vertexOf_eq_loop owns nested] at same
    rw [heads, isNested.entries_eq]
    refine checked.mem_entriesOf_of_edge edge (fun before => outside ?_) same
    exact ⟨isNested.inside _ before,
      .inl ((isOf.vertexOf_eq_loop owns nested).2 before)⟩

end LoopForest.IsOf

/-! ## Arms of a branching block -/

/-- An arm of a block along a coordinate with a target: if it holds a part, the arm is the only edge
into that part. -/
structure ArmOf (graph : BlockGraph) (forest : LoopForest) (around : Option Loop) (id : BlockId)
    (coord : Coord) (target : BlockId) (arm : Arm) : Prop where
  isArm : IsArm graph forest around coord target arm
  fits : ∀ tree, arm = .nested tree → Fits graph forest Bare around tree
  sums : Sums graph forest around (armWays graph forest coord arm) arm.jumps
  hang : ∀ other ∈ Tree.blocksOfArm arm, Under graph forest around (.block target) other ∧
    ((Region.of graph forest around).rooted graph).idom? (.block target) = some (.block id)
  distinct : (Tree.blocksOfArm arm).Nodup
  only : ∀ {way next}, graph.HasEdge way next → way.block ∉ Tree.blocksOfArm arm →
    next ∈ Tree.blocksOfArm arm → way = coord ∧ next = target

/-- A vertex with one edge into it is entered along that edge alone. -/
theorem eq_of_degree {site : Site} (isSite : site.IsOf graph forest around) {vertex : Vertex}
    (single : site.view.degree vertex = 1) {first second : Coord × BlockId}
    (left : first ∈ (Region.of graph forest around).crossings graph)
    (right : second ∈ (Region.of graph forest around).crossings graph)
    (here : (Region.of graph forest around).vertexOf first.2 = vertex)
    (there : (Region.of graph forest around).vertexOf second.2 = vertex) : first = second := by
  rw [Region.View.degree, isSite.view_eq, Region.blockLinks, List.filter_map,
    List.length_map] at single
  obtain ⟨only, list⟩ := List.length_eq_one_iff.1 single
  have member {edge : Coord × BlockId}
      (among : edge ∈ (Region.of graph forest around).crossings graph)
      (same : (Region.of graph forest around).vertexOf edge.2 = vertex) : edge = only := by
    rw [← List.mem_singleton, ← list]
    exact List.mem_filter.2 ⟨among, by simpa using same⟩
  rw [member left here, member right there]

namespace LoopForest.IsOf

variable (checked : graph.Checked) (isOf : forest.IsOf graph) (owns : forest.Owns around)

include checked isOf owns

/-- An arm of a conditional holds the target, if the target may be nested. -/
theorem exists_arm {site : Site} (isSite : site.IsOf graph forest around) {id : BlockId}
    (children : Children graph forest around (.block id) placed)
    (member : Vertex.block id ∈ ((Region.of graph forest around).rooted graph).order)
    {coord : Coord} {target : BlockId} (edge : graph.HasEdge coord target)
    (source : coord.block = id) :
    ∃ arm, site.arm placed coord target = .ok arm ∧
      ArmOf graph forest around id coord target arm ∧
      (site.nestable? placed target = none → Tree.blocksOfArm arm = []) ∧
      ((site.nestable? placed target).isSome = true →
        ∀ other, other ∈ Tree.blocksOfArm arm ↔
          Under graph forest around (.block target) other) := by
  have ordered := isOf.ordered_rooted checked owns
  obtain ⟨inside, vertex, direct⟩ := isOf.direct_of_vertex checked owns member
  unfold Site.arm
  cases nest : site.nestable? placed target with
  | none =>
      have sums : Sums graph forest around (fun way => way = coord) (site.wayOut coord target) :=
        .wayOut checked isOf owns isSite.forest_eq (by rw [isSite.view_eq, Region.blocks_of]) edge
          (source ▸ direct)
      refine ⟨_, rfl, ⟨.jump sums, by simp, sums, ?_, ?_, ?_⟩, fun _ => rfl, by simp⟩
      · simp [Tree.blocksOfArm]
      · simp [Tree.blocksOfArm]
      · simp [Tree.blocksOfArm]
  | some elems =>
      unfold Site.nestable? at nest
      rw [isSite.view_eq] at nest
      obtain ⟨⟨notEntry, single⟩, found⟩ :
          (target ∉ (Region.of graph forest around).entries ∧
            site.view.degree (.block target) = 1) ∧
          placed.lookup (.block target) = some elems := by
        split at nest
        · next test =>
          simp only [Bool.and_eq_true, decide_eq_true_eq] at test
          exact ⟨⟨test.1, isSite.view_eq ▸ test.2⟩, nest⟩
        · cases nest
      have among := (children.lookup_eq_some_iff ordered).1 found
      have hangs := children.hang among
      obtain ⟨first, rest, rfl, isPlaced⟩ := children.made _ among
      have isVertex := (ordered.mem_dominated.1 (Rooted.Ordered.dominated_of_idom? hangs)).1
      obtain ⟨targetInside, targetVertex, -⟩ := isOf.direct_of_vertex checked owns isVertex
      have notUnder := isOf.not_under_of_vertexOf checked owns hangs vertex
      have crossing : (coord, target) ∈ (Region.of graph forest around).crossings graph := by
        refine (mem_crossings_iff checked).2 ⟨edge, source ▸ inside, targetInside, notEntry, ?_⟩
        intro same
        exact notUnder ⟨inside, .inl (source ▸ same.trans targetVertex)⟩
      -- The part is entered at its top, and there along the arm alone.
      have enters {way : Coord} {next : BlockId} (leads : graph.HasEdge way next)
          (outside : ¬ Under graph forest around (.block target) way.block)
          (under : Under graph forest around (.block target) next) :
          way = coord ∧ next = target := by
        have same := isOf.vertexOf_of_enters checked owns (by simp) leads outside under
        obtain ⟨rfl, -⟩ := Region.vertexOf_eq_block.1 same
        have before : way.block ∈ blocksOf graph around := by
          by_contra away
          exact notEntry (isOf.entry_of_edge checked owns leads away targetInside)
        have other := (mem_crossings_iff checked).2 ⟨leads, before, targetInside, notEntry,
          fun equal => outside ⟨before, equal ▸ under.2⟩⟩
        exact ⟨congrArg Prod.fst (eq_of_degree isSite single other crossing same same), rfl⟩
      obtain ⟨tree, made, fits, blocks, heads⟩ := exists_ofSequence checked isPlaced.fits
        isPlaced.flat isPlaced.chain fun {way next} leads outside inner =>
          isPlaced.entered leads (fun under => outside ((isPlaced.blocks_iff _).2 under))
            ((isPlaced.blocks_iff _).1 inner)
      have holds : ∀ other, other ∈ tree.blocks ↔
          Under graph forest around (.block target) other := by
        rw [blocks]
        exact isPlaced.blocks_iff
      refine ⟨.nested tree, by simp [made], ⟨.nested ?_ ?_, ?_, fits.part.ways, ?_, ?_, ?_⟩,
        by simp, fun _ => holds⟩
      · exact isOf.plain_of_crossing checked owns crossing
      · exact heads.trans isPlaced.heads
      · rintro other ⟨⟩
        exact fits
      · exact fun other here => ⟨(holds other).1 here, hangs⟩
      · exact fits.part.distinct
      · intro way next leads outside inner
        exact enters leads (fun under => outside ((holds _).2 under)) ((holds _).1 inner)

end LoopForest.IsOf

/-- A block in an arm lies under the target of the arm. -/
theorem ArmOf.target_mem {id : BlockId} {coord : Coord} {target : BlockId} {arm : Arm}
    (isArm : ArmOf graph forest around id coord target arm) {other : BlockId}
    (member : other ∈ Tree.blocksOfArm arm) : target ∈ Tree.blocksOfArm arm := by
  rcases isArm with ⟨kind, fits, -, -, -, -⟩
  cases kind with
  | jump => cases member
  | nested plain heads =>
      exact (fits _ rfl).part.heads_mem target (heads ▸ SortedSet.mem_singleton.2 rfl)

/-- A way out of the part that an arm holds, or along the arm, leaves what the arm holds. -/
theorem ArmOf.ways_cases {id : BlockId} {coord : Coord} {target : BlockId} {arm : Arm}
    (isArm : ArmOf graph forest around id coord target arm) {way : Coord}
    (leaves : armWays graph forest coord arm way) :
    (way = coord ∧ Tree.blocksOfArm arm = []) ∨
      Leaves graph forest (Tree.blocksOfArm arm) way := by
  cases arm with
  | jump => exact .inl ⟨leaves, rfl⟩
  | nested tree => exact .inr leaves

/-- A subtree that does not follow a branching block is nested in one of its arms. -/
theorem nested_of_dropped {site : Site} {one two : BlockId} {entry : Vertex × List Tree}
    (among : entry ∈ placed)
    (dropped : entry ∉ placed.filter fun entry => [one, two].all fun target =>
      entry.1 ≠ .block target || (site.nestable? placed target).isNone) :
    (entry.1 = .block one ∧ (site.nestable? placed one).isSome = true) ∨
      (entry.1 = .block two ∧ (site.nestable? placed two).isSome = true) := by
  by_contra neither
  refine dropped (List.mem_filter.2 ⟨among, ?_⟩)
  simp only [List.all_cons, List.all_nil, Bool.and_true, Bool.and_eq_true, Bool.or_eq_true,
    decide_eq_true_eq, Option.isNone_iff_eq_none, ← Option.not_isSome_iff_eq_none]
  tauto

/-- What is kept behind a conditional is nested in no arm of it. -/
theorem bare_of_kept {site : Site} {targets : List BlockId} {entry : Vertex × List Tree}
    (kept : entry ∈ placed.filter fun entry => targets.all fun target =>
      entry.1 ≠ .block target || (site.nestable? placed target).isNone)
    {target : BlockId} (listed : target ∈ targets) (same : entry.1 = .block target) :
    site.nestable? placed target = none := by
  have passes := (List.mem_filter.1 kept).2
  have test := List.all_eq_true.1 passes target listed
  simpa [same] using test

namespace LoopForest.IsOf

variable (checked : graph.Checked) (isOf : forest.IsOf graph) (owns : forest.Owns around)

include checked isOf owns

/-- The conditional itself is in neither of its arms. -/
theorem not_mem_arm {id : BlockId} {coord : Coord} {target : BlockId} {arm : Arm}
    (member : Vertex.block id ∈ ((Region.of graph forest around).rooted graph).order)
    (isArm : ArmOf graph forest around id coord target arm) : id ∉ Tree.blocksOfArm arm := by
  intro here
  obtain ⟨under, hangs⟩ := isArm.hang id here
  exact isOf.not_under_of_vertexOf checked owns hangs
    (isOf.direct_of_vertex checked owns member).2.1 under

/-- The parts that two arms of a block hold are apart. -/
theorem arms_apart {id : BlockId} {first second : Coord} {one two : BlockId} {left right : Arm}
    (member : Vertex.block id ∈ ((Region.of graph forest around).rooted graph).order)
    (isLeft : ArmOf graph forest around id first one left)
    (isRight : ArmOf graph forest around id second two right)
    (differ : first ≠ second) (edge : graph.HasEdge first one) (source : first.block = id)
    {other : BlockId} (here : other ∈ Tree.blocksOfArm left) :
    other ∉ Tree.blocksOfArm right := by
  intro there
  obtain ⟨underLeft, hangsLeft⟩ := isLeft.hang other here
  obtain ⟨underRight, hangsRight⟩ := isRight.hang other there
  cases isOf.eq_of_under checked owns hangsLeft hangsRight underLeft underRight
  exact differ (isRight.only edge (source ▸ isOf.not_mem_arm checked owns member isRight)
    (isRight.target_mem there)).1

/-- A way out of one arm leaves the block and the parts that its arms hold. -/
theorem leaves_of_armWays {id : BlockId} {first second : Coord} {one two : BlockId}
    {left right : Arm}
    (member : Vertex.block id ∈ ((Region.of graph forest around).rooted graph).order)
    (isLeft : ArmOf graph forest around id first one left)
    (isRight : ArmOf graph forest around id second two right)
    (differ : first ≠ second) (edge : graph.HasEdge first one) (source : first.block = id)
    (source' : second.block = id) {way : Coord} (leaves : armWays graph forest first left way) :
    (way.block = id ∨ way.block ∈ Tree.blocksOfArm left) ∧
      ∀ target, Plain graph forest way target → target ≠ id ∧
        target ∉ Tree.blocksOfArm left ∧ target ∉ Tree.blocksOfArm right := by
  obtain ⟨inside, vertex, -⟩ := isOf.direct_of_vertex checked owns member
  rcases isLeft.ways_cases leaves with ⟨rfl, none⟩ | ⟨within, outside⟩
  · refine ⟨.inl source, fun target plain => ⟨isOf.ne_of_plain checked owns member plain source,
      by simp [none], fun there => differ ?_⟩⟩
    exact (isRight.only plain.1 (source ▸ isOf.not_mem_arm checked owns member isRight) there).1
  · obtain ⟨under, hangs⟩ := isLeft.hang _ within
    refine ⟨.inr within, fun target plain => ⟨?_, outside target plain, fun there => ?_⟩⟩
    · rintro rfl
      exact isOf.vertexOf_ne_of_plain checked owns hangs plain under inside vertex
    · -- The other part is entered along its own arm alone.
      have apart := isOf.arms_apart checked owns member isLeft isRight differ edge source within
      have same := (isRight.only plain.1 apart there).1
      rw [same, source'] at within
      exact isOf.not_mem_arm checked owns member isLeft within

omit isOf owns in
/-- A way out of a branching block itself is one of its arms. -/
theorem armWays_of_leaves {id : BlockId} {one two : BlockId} {left right : Arm}
    (edges : graph.outEdges id = [(⟨id, .taken⟩, one), (⟨id, .notTaken⟩, two)])
    (isLeft : ArmOf graph forest around id ⟨id, .taken⟩ one left)
    (isRight : ArmOf graph forest around id ⟨id, .notTaken⟩ two right) {way : Coord}
    (isWay : graph.IsWay way) (source : way.block = id)
    (free : ∀ target, Plain graph forest way target → target ≠ id ∧
      target ∉ Tree.blocksOfArm left ∧ target ∉ Tree.blocksOfArm right) :
    armWays graph forest ⟨id, .taken⟩ left way ∨
      armWays graph forest ⟨id, .notTaken⟩ right way := by
  obtain ⟨target, edge⟩ : ∃ target, graph.HasEdge way target := by
    rcases isWay with edge | ⟨-, returning⟩
    · exact edge
    · have none := checked.outEdges_of_isReturning (source ▸ returning)
      simp [edges] at none
  have listed := edge
  rw [BlockGraph.HasEdge, source, edges] at listed
  simp only [List.mem_cons, Prod.mk.injEq, List.not_mem_nil, or_false] at listed
  rcases listed with ⟨rfl, rfl⟩ | ⟨rfl, rfl⟩
  · rcases isLeft.isArm with sums | ⟨plain, heads⟩
    · exact .inl rfl
    · have inside := (isLeft.fits _ rfl).part.heads_mem target
        (heads ▸ SortedSet.mem_singleton.2 rfl)
      exact absurd inside (free target plain).2.1
  · rcases isRight.isArm with sums | ⟨plain, heads⟩
    · exact .inr rfl
    · have inside := (isRight.fits _ rfl).part.heads_mem target
        (heads ▸ SortedSet.mem_singleton.2 rfl)
      exact absurd inside (free target plain).2.2

section Branching

variable {id one two : BlockId} {left right : Arm} {jumps : Jumps}
  (member : Vertex.block id ∈ ((Region.of graph forest around).rooted graph).order)
  (edges : graph.outEdges id = [(⟨id, .taken⟩, one), (⟨id, .notTaken⟩, two)])
  (isLeft : ArmOf graph forest around id ⟨id, .taken⟩ one left)
  (isRight : ArmOf graph forest around id ⟨id, .notTaken⟩ two right)

include member edges isLeft isRight

/-- A way out of an arm of a conditional leaves the conditional. -/
theorem leaves_conditional {way : Coord} (leaves : armWays graph forest ⟨id, .taken⟩ left way ∨
      armWays graph forest ⟨id, .notTaken⟩ right way) :
    Leaves graph forest (Tree.conditional ⟨id, jumps, .none⟩ left right).blocks way := by
  simp only [Leaves, Tree.blocks_conditional, List.mem_cons, List.mem_append, not_or]
  rcases leaves with leaves | leaves
  · obtain ⟨start, free⟩ := isOf.leaves_of_armWays checked owns member isLeft isRight
      (by simp) (by simp [BlockGraph.HasEdge, edges]) rfl rfl leaves
    exact ⟨start.imp_right .inl, free⟩
  · obtain ⟨start, free⟩ := isOf.leaves_of_armWays checked owns member isRight isLeft
      (by simp) (by simp [BlockGraph.HasEdge, edges]) rfl rfl leaves
    refine ⟨start.imp_right .inr, fun target plain => ?_⟩
    obtain ⟨notSelf, notRight, notLeft⟩ := free target plain
    exact ⟨notSelf, notLeft, notRight⟩

/-- The ways out of a conditional are those out of its arms. -/
theorem leaves_conditional_iff {way : Coord} (isWay : graph.IsWay way) :
    Leaves graph forest (Tree.conditional ⟨id, jumps, .none⟩ left right).blocks way ↔
      armWays graph forest ⟨id, .taken⟩ left way ∨
        armWays graph forest ⟨id, .notTaken⟩ right way := by
  refine ⟨?_, isOf.leaves_conditional checked owns member edges isLeft isRight⟩
  simp only [Leaves, Tree.blocks_conditional, List.mem_cons, List.mem_append, not_or]
  rintro ⟨start | start | start, free⟩
  · exact armWays_of_leaves checked edges isLeft isRight isWay start free
  · obtain ⟨tree, rfl⟩ : ∃ tree, left = .nested tree := by
      cases left with
      | jump => cases start
      | nested tree => exact ⟨tree, rfl⟩
    exact .inl ⟨start, fun target plain => (free target plain).2.1⟩
  · obtain ⟨tree, rfl⟩ : ∃ tree, right = .nested tree := by
      cases right with
      | jump => cases start
      | nested tree => exact ⟨tree, rfl⟩
    exact .inr ⟨start, fun target plain => (free target plain).2.2⟩

/-- A branching block and what its arms hold are a part. -/
theorem isPartOf_conditional : IsPartOf graph forest around
    (.conditional ⟨id, left.jumps.union right.jumps, .none⟩ left right) := by
  have inside := (isOf.direct_of_vertex checked owns member).1
  refine ⟨?_, ?_, by simp [Tree.heads, Tree.head, Tree.label], by simp [Tree.heads], ?_, ?_⟩
  · intro other here
    rw [Tree.blocks_conditional, List.mem_cons, List.mem_append] at here
    rcases here with rfl | here | here
    · exact inside
    · exact (isLeft.hang other here).1.1
    · exact (isRight.hang other here).1.1
  · rw [Tree.blocks_conditional, List.nodup_cons, List.mem_append, List.nodup_append']
    exact ⟨not_or.2 ⟨isOf.not_mem_arm checked owns member isLeft,
        isOf.not_mem_arm checked owns member isRight⟩,
      isLeft.distinct, isRight.distinct, fun other here =>
        isOf.arms_apart checked owns member isLeft isRight (by simp)
          (by simp [BlockGraph.HasEdge, edges]) rfl here⟩
  · intro coord target edge outside here
    rw [Tree.blocks_conditional, List.mem_cons, List.mem_append] at outside here
    simp only [not_or] at outside
    rcases here with rfl | here | here
    · simp [Tree.heads]
    · exact absurd (congrArg Coord.block (isLeft.only edge outside.2.1 here).1) outside.1
    · exact absurd (congrArg Coord.block (isRight.only edge outside.2.2 here).1) outside.1
  · exact (isLeft.sums.union isRight.sums).congr fun way isWay =>
      (isOf.leaves_conditional_iff checked owns member edges isLeft isRight isWay).symm

end Branching

/-- A block that branches holds its arms, and is followed by what is not in them. -/
theorem exists_block_branching {site : Site} (isSite : site.IsOf graph forest around)
    {id : BlockId} (children : Children graph forest around (.block id) placed)
    (member : Vertex.block id ∈ ((Region.of graph forest around).rooted graph).order)
    (branching : graph.isBranching id = true) :
    ∃ first rest, site.block placed id = .ok (first :: rest) ∧
      Placed graph forest around (.block id) first rest := by
  have ordered := isOf.ordered_rooted checked owns
  obtain ⟨inside, vertex, direct⟩ := isOf.direct_of_vertex checked owns member
  obtain ⟨one, two, edges⟩ := checked.outEdges_of_isBranching branching
  have taken : graph.HasEdge ⟨id, .taken⟩ one := by simp [BlockGraph.HasEdge, edges]
  have notTaken : graph.HasEdge ⟨id, .notTaken⟩ two := by simp [BlockGraph.HasEdge, edges]
  obtain ⟨left, madeLeft, isLeft, bareLeft, fullLeft⟩ :=
    isOf.exists_arm checked owns isSite children member taken rfl
  obtain ⟨right, madeRight, isRight, bareRight, fullRight⟩ :=
    isOf.exists_arm checked owns isSite children member notTaken rfl
  have allowed : graph.requireBlocks (.singleton id) = .ok () :=
    BlockGraph.requireBlocks_ok fun other same =>
      SortedSet.mem_singleton.1 same ▸ isOf.blocksOf_known owns inside
  have made : site.block placed id =
      .ok (.conditional ⟨id, left.jumps.union right.jumps, .none⟩ left right ::
        site.following placed [one, two]) := by
    unfold Site.block
    rw [isSite.graph_eq, allowed, ok_bind, edges]
    simp only [madeLeft, madeRight, ok_bind, pure_eq_ok]
  have part := isOf.isPartOf_conditional checked owns member edges isLeft isRight
  have leaves {way : Coord} (out : armWays graph forest ⟨id, .taken⟩ left way ∨
      armWays graph forest ⟨id, .notTaken⟩ right way) : Leaves graph forest
        (Tree.conditional ⟨id, left.jumps.union right.jumps, .none⟩ left right).blocks way :=
    isOf.leaves_conditional checked owns member edges isLeft isRight out
  refine ⟨_, _, made, Follow.placed_node checked isOf owns ?_ (.conditional part
    rfl (isOf.innermost?_of_vertex checked owns member) branching edges isLeft.isArm isRight.isArm
    (fun _ way => leaves (.inl way)) (fun _ way => leaves (.inr way)) isLeft.fits isRight.fits)
    rfl ?_ ?_⟩
  · refine ⟨fun entry kept => children.made entry (List.mem_of_mem_filter kept),
      fun entry kept => children.hang (List.mem_of_mem_filter kept),
      (children.increasing ordered).filter _, ?_, ?_, ?_, by simp⟩
    · intro other
      rw [children.under_iff ordered, Region.vertexOf_eq_block, Tree.blocks_conditional,
        List.mem_cons, List.mem_append]
      constructor
      · rintro (⟨-, same, -⟩ | ⟨entry, among, under⟩)
        · exact .inl (.inl same)
        · by_cases kept : entry ∈ placed.filter fun entry => [one, two].all fun target =>
              entry.1 ≠ .block target || (site.nestable? placed target).isNone
          · exact .inr ⟨entry, kept, under⟩
          · refine .inl (.inr ?_)
            rcases nested_of_dropped among kept with ⟨same, nests⟩ | ⟨same, nests⟩
            · exact .inl ((fullLeft nests other).2 (same ▸ under))
            · exact .inr ((fullRight nests other).2 (same ▸ under))
      · rintro ((rfl | here | here) | ⟨entry, kept, under⟩)
        · exact .inl ⟨inside, rfl, fun loop nested => direct loop (Region.inner_of ▸ nested)⟩
        · exact .inr (children.exists_of_under ordered (isLeft.hang other here).2
            (isLeft.hang other here).1)
        · exact .inr (children.exists_of_under ordered (isRight.hang other here).2
            (isRight.hang other here).1)
        · exact .inr ⟨entry, List.mem_of_mem_filter kept, under⟩
    · intro entry kept other here under
      have hangs := children.hang (List.mem_of_mem_filter kept)
      rw [Tree.blocks_conditional, List.mem_cons, List.mem_append] at here
      rcases here with rfl | here | here
      · exact isOf.not_under_of_vertexOf checked owns hangs vertex under
      · obtain ⟨underArm, hangsArm⟩ := isLeft.hang other here
        have same := isOf.eq_of_under checked owns hangs hangsArm under underArm
        exact absurd here (by simp [bareLeft (bare_of_kept kept (by simp) same)])
      · obtain ⟨underArm, hangsArm⟩ := isRight.hang other here
        have same := isOf.eq_of_under checked owns hangs hangsArm under underArm
        exact absurd here (by simp [bareRight (bare_of_kept kept (by simp) same)])
    · intro entry kept coord target plain source back
      have hangs := children.hang (List.mem_of_mem_filter kept)
      have away : coord.block ≠ id := fun same =>
        isOf.not_under_of_vertexOf checked owns hangs (same ▸ vertex) source
      rw [Tree.blocks_conditional, List.mem_cons, List.mem_append] at back
      rcases back with rfl | back | back
      · exact isOf.vertexOf_ne_of_plain checked owns hangs plain source inside vertex
      · refine away (congrArg Coord.block (isLeft.only plain.1 (fun here => ?_) back).1)
        obtain ⟨underArm, hangsArm⟩ := isLeft.hang _ here
        have same := isOf.eq_of_under checked owns hangs hangsArm source underArm
        exact absurd here (by simp [bareLeft (bare_of_kept kept (by simp) same)])
      · refine away (congrArg Coord.block (isRight.only plain.1 (fun here => ?_) back).1)
        obtain ⟨underArm, hangsArm⟩ := isRight.hang _ here
        have same := isOf.eq_of_under checked owns hangs hangsArm source underArm
        exact absurd here (by simp [bareRight (bare_of_kept kept (by simp) same)])
  · intro coord target edge outside under
    have same := isOf.vertexOf_of_enters checked owns (by simp) edge outside under
    simpa [Tree.heads] using (Region.vertexOf_eq_block.1 same).1
  · exact rfl

/-! ## The root above several entries -/

/-- The entries of a region with several entries hang below its root. -/
theorem hangs_of_entry (several : (Region.of graph forest around).top = .root) {id : BlockId}
    (isEntry : id ∈ (Region.of graph forest around).entries) :
    ((Region.of graph forest around).rooted graph).idom? (.block id) = some .root := by
  have ordered := isOf.ordered_rooted checked owns
  have inside := isOf.entry_mem_blocks checked owns isEntry
  have member := isOf.vertexOf_mem_order checked owns inside
  rw [isOf.vertexOf_entry owns several isEntry] at member
  have link : Vertex.block id ∈ ((Region.of graph forest around).rooted graph).next .root :=
    mem_next_iff.2 (.inl ⟨several, rfl, id, isEntry, rfl⟩)
  have below := ordered.below_root member
  rw [show ((Region.of graph forest around).rooted graph).root = Vertex.root from several] at below
  exact ordered.idom?_of_edge ((isOf.mem_order_iff checked owns).2 (.inl ⟨rfl, several⟩)) link below

/-- A plain edge does not lead from elsewhere in the region into the part under an entry. -/
theorem under_of_plain_to_entry {entry : BlockId}
    (isEntry : entry ∈ (Region.of graph forest around).entries) {coord : Coord} {target : BlockId}
    (plain : Plain graph forest coord target) (inside : coord.block ∈ blocksOf graph around)
    (under : Under graph forest around (.block entry) target) :
    Under graph forest around (.block entry) coord.block := by
  by_contra outside
  have vertex := isOf.vertexOf_of_enters checked owns (by simp) plain.1 outside under
  rw [(Region.vertexOf_eq_block.1 vertex).1] at plain
  exact isOf.not_entry_of_plain checked owns plain inside isEntry

/-- The tree of an alternative, entered at one of the region's entries. -/
structure IsAlternative (graph : BlockGraph) (forest : LoopForest) (around : Option Loop)
    (entry : BlockId) (tree : Tree) : Prop where
  fits : Fits graph forest Bare around tree
  heads : tree.heads = .singleton entry
  blocks_iff : ∀ id, id ∈ tree.blocks ↔ Under graph forest around (.block entry) id

/-- Each entry of a region with several entries has been placed as an alternative. -/
theorem exists_alternatives (several : (Region.of graph forest around).top = .root)
    (children : Children graph forest around .root placed) :
    ∃ alternatives, (Region.of graph forest around).entries.toList.mapM (fun entry =>
        Tree.ofSequence ((placed.lookup (.block entry)).getD [])) = .ok alternatives ∧
      List.Forall₂ (IsAlternative graph forest around)
        (Region.of graph forest around).entries.toList alternatives := by
  have ordered := isOf.ordered_rooted checked owns
  refine exists_mapM_ok fun entry isEntry => ?_
  obtain ⟨elems, among⟩ :=
    children.exists_of_hangs ordered (isOf.hangs_of_entry checked owns several isEntry)
  obtain ⟨first, rest, rfl, isPlaced⟩ := children.made _ among
  obtain ⟨tree, sequence, fits, blocks, heads⟩ := exists_ofSequence checked isPlaced.fits
    isPlaced.flat isPlaced.chain fun {way next} leads outside inner =>
      isPlaced.entered leads (fun under => outside ((isPlaced.blocks_iff _).2 under))
        ((isPlaced.blocks_iff _).1 inner)
  refine ⟨tree, ?_, fits, heads.trans isPlaced.heads, fun id => ?_⟩
  · rw [(children.lookup_eq_some_iff ordered).2 among]
    exact sequence
  · rw [blocks]
    exact isPlaced.blocks_iff id

omit checked isOf owns in
/-- The alternatives of a merge begin at the entries of the region. -/
theorem headsOfAll_eq {entries : SortedSet BlockId} {alternatives : List Tree}
    (related : List.Forall₂ (IsAlternative graph forest around) entries.toList alternatives) :
    Tree.headsOfAll alternatives = entries := by
  refine SortedSet.ext fun id => ?_
  rw [Tree.mem_headsOfAll]
  constructor
  · rintro ⟨tree, member, isHead⟩
    obtain ⟨entry, among, isAlternative⟩ := exists_of_mem_right related member
    rw [isAlternative.heads, SortedSet.mem_singleton] at isHead
    exact isHead ▸ among
  · intro isEntry
    obtain ⟨tree, member, isAlternative⟩ := exists_of_mem_left related isEntry
    exact ⟨tree, member, isAlternative.heads ▸ SortedSet.mem_singleton.2 rfl⟩

/-- A way out of one alternative leaves them all. -/
theorem leaves_of_alternative {alternatives : List Tree}
    (related : List.Forall₂ (IsAlternative graph forest around)
      (Region.of graph forest around).entries.toList alternatives)
    (several : (Region.of graph forest around).top = .root) {tree : Tree}
    (member : tree ∈ alternatives) {way : Coord} (leaves : Leaves graph forest tree.blocks way) :
    Leaves graph forest (alternatives.flatMap Tree.blocks) way := by
  refine ⟨List.mem_flatMap.2 ⟨tree, member, leaves.1⟩, fun target plain here => ?_⟩
  obtain ⟨other, among, holds⟩ := List.mem_flatMap.1 here
  obtain ⟨one, isOne, isTree⟩ := exists_of_mem_right related member
  obtain ⟨two, isTwo, isOther⟩ := exists_of_mem_right related among
  have source := (isTree.blocks_iff _).1 leaves.1
  have there := (isOther.blocks_iff _).1 holds
  have same := isOf.eq_of_under checked owns (isOf.hangs_of_entry checked owns several isOne)
    (isOf.hangs_of_entry checked owns several isTwo) source
    (isOf.under_of_plain_to_entry checked owns isTwo plain source.1 there)
  exact leaves.2 target plain ((isTree.blocks_iff _).2 (same ▸ there))

/-- A merge of all entries is a part of the region. -/
theorem isPartOf_merge {alternatives : List Tree} {incoming : Incoming}
    (related : List.Forall₂ (IsAlternative graph forest around)
      (Region.of graph forest around).entries.toList alternatives)
    (several : (Region.of graph forest around).top = .root) {head : BlockId}
    (isEntry : head ∈ (Region.of graph forest around).entries) :
    IsPartOf graph forest around (.merge
      ⟨head, alternatives.foldl (fun jumps tree => jumps.union tree.jumps) Jumps.none, .none⟩
      alternatives incoming) := by
  have parts {tree : Tree} (member : tree ∈ alternatives) : IsPartOf graph forest around tree := by
    obtain ⟨entry, -, isAlternative⟩ := exists_of_mem_right related member
    exact isAlternative.fits.part
  refine ⟨?_, ?_, ?_, ?_, ?_, ?_⟩
  · intro id here
    rw [Tree.blocks_merge] at here
    obtain ⟨tree, member, holds⟩ := List.mem_flatMap.1 here
    exact (parts member).inside id holds
  · rw [Tree.blocks_merge, List.nodup_flatMap]
    refine ⟨fun tree member => (parts member).distinct, ?_⟩
    have entries : (Region.of graph forest around).entries.toList.Pairwise fun one two =>
        one ∈ (Region.of graph forest around).entries ∧
          two ∈ (Region.of graph forest around).entries ∧ one ≠ two :=
      (Region.of graph forest around).entries.nodup.imp_of_mem
        fun left right differ => ⟨left, right, differ⟩
    refine pairwise_of_forall₂ related entries fun one first two second isFirst isSecond known => ?_
    obtain ⟨left, right, differ⟩ := known
    refine List.disjoint_left.2 fun id here there => differ ?_
    have same := isOf.eq_of_under checked owns (isOf.hangs_of_entry checked owns several left)
      (isOf.hangs_of_entry checked owns several right) ((isFirst.blocks_iff id).1 here)
      ((isSecond.blocks_iff id).1 there)
    cases same
    rfl
  · show head ∈ Tree.headsOfAll alternatives
    rwa [headsOfAll_eq related]
  · intro id isHead
    obtain ⟨tree, member, isHead⟩ := Tree.mem_headsOfAll.1 isHead
    rw [Tree.blocks_merge]
    exact List.mem_flatMap.2 ⟨tree, member, (parts member).heads_mem id isHead⟩
  · intro coord target edge outside here
    rw [Tree.blocks_merge] at outside here
    obtain ⟨tree, member, holds⟩ := List.mem_flatMap.1 here
    refine Tree.mem_headsOfAll.2 ⟨tree, member, (parts member).entered edge ?_ holds⟩
    exact fun within => outside (List.mem_flatMap.2 ⟨tree, member, within⟩)
  · have sums : Sums graph forest around
        (fun coord => False ∨ ∃ tree ∈ alternatives, Leaves graph forest tree.blocks coord)
        (alternatives.foldl (fun jumps tree => jumps.union tree.jumps) Jumps.none) :=
      Sums.none.foldl_union fun tree member => (parts member).ways
    refine sums.congr fun coord _ => ?_
    rw [false_or, Tree.blocks_merge]
    constructor
    · rintro ⟨tree, member, leaves⟩
      exact isOf.leaves_of_alternative checked owns related several member leaves
    · rintro ⟨here, leaves⟩
      obtain ⟨tree, member, within⟩ := List.mem_flatMap.1 here
      exact ⟨tree, member, within, fun target plain inside =>
        leaves target plain (List.mem_flatMap.2 ⟨tree, member, inside⟩)⟩

omit checked isOf owns in
/-- A region that is entered at a root of its own has several entries. -/
theorem exists_other_entry (several : (Region.of graph forest around).top = .root) :
    ∀ id ∈ (Region.of graph forest around).entries,
      ∃ other ∈ (Region.of graph forest around).entries, other ≠ id := by
  intro id isEntry
  by_contra none
  simp only [not_exists, not_and, not_not] at none
  have only : (Region.of graph forest around).entries = .singleton id :=
    SortedSet.ext fun other =>
      ⟨fun member => SortedSet.mem_singleton.2 (none other member),
        fun same => SortedSet.mem_singleton.1 same ▸ isEntry⟩
  unfold Region.top at several
  rw [only] at several
  exact Region.vertexOf_ne_root several

/-- A region with several entries begins with a merge of them. -/
theorem exists_merge {site : Site} (isSite : site.IsOf graph forest around)
    (several : (Region.of graph forest around).top = .root)
    (children : Children graph forest around .root placed) :
    ∃ first rest, site.merge placed = .ok (first :: rest) ∧
      Placed graph forest around .root first rest := by
  have ordered := isOf.ordered_rooted checked owns
  obtain ⟨alternatives, made, related⟩ := isOf.exists_alternatives checked owns several children
  have heads := headsOfAll_eq related
  have whole : site.merge placed = .ok (.merge
      ⟨(Region.of graph forest around).entries.toList.headD default,
        alternatives.foldl (fun jumps tree => jumps.union tree.jumps) Jumps.none, .none⟩
      alternatives (.ofList ((Region.of graph forest around).entries.toList.map fun entry =>
        (entry, .ofList (graph.inCoords entry)))) ::
      (placed.filter fun entry => (Region.of graph forest around).entries.toList.all
        fun id => entry.1 ≠ .block id).flatMap Prod.snd) := by
    unfold Site.merge
    rw [isSite.view_eq, isSite.graph_eq]
    simp only [made, ok_bind, pure_eq_ok]
  have least : (Region.of graph forest around).entries.toList.headD default ∈
      (Region.of graph forest around).entries := by
    obtain ⟨entry, isEntry⟩ := isOf.exists_entry owns
    rw [← SortedSet.mem_toList] at isEntry ⊢
    cases listed : (Region.of graph forest around).entries.toList with
    | nil => simp [listed] at isEntry
    | cons first rest => simp
  have notEntry {entry : Vertex × List Tree}
      (kept : entry ∈ placed.filter fun entry =>
        (Region.of graph forest around).entries.toList.all fun id => entry.1 ≠ .block id)
      {id : BlockId} (isEntry : id ∈ (Region.of graph forest around).entries) :
      entry.1 ≠ .block id := by
    have passes := (List.mem_filter.1 kept).2
    simpa using List.all_eq_true.1 passes id isEntry
  have holds {id : BlockId} (here : id ∈ alternatives.flatMap Tree.blocks) :
      ∃ entry ∈ (Region.of graph forest around).entries,
        Under graph forest around (.block entry) id := by
    obtain ⟨tree, member, within⟩ := List.mem_flatMap.1 here
    obtain ⟨entry, isEntry, isAlternative⟩ := exists_of_mem_right related member
    exact ⟨entry, isEntry, (isAlternative.blocks_iff id).1 within⟩
  refine ⟨_, _, whole, Follow.placed_node checked isOf owns ?_
    (.merge (isOf.isPartOf_merge checked owns related several least) rfl ?_ ?_ ?_ ?_ ?_
      ?_) rfl ?_ heads⟩
  · refine ⟨fun entry kept => children.made entry (List.mem_of_mem_filter kept),
      fun entry kept => children.hang (List.mem_of_mem_filter kept),
      (children.increasing ordered).filter _, ?_, ?_, ?_,
      fun _ entry kept id isEntry => notEntry kept isEntry⟩
    · intro id
      rw [children.under_iff ordered, Tree.blocks_merge]
      constructor
      · rintro (⟨-, root⟩ | ⟨entry, among, under⟩)
        · exact absurd root Region.vertexOf_ne_root
        · by_cases kept : entry ∈ placed.filter fun entry =>
              (Region.of graph forest around).entries.toList.all fun id => entry.1 ≠ .block id
          · exact .inr ⟨entry, kept, under⟩
          · obtain ⟨other, isEntry, same⟩ : ∃ other ∈ (Region.of graph forest around).entries,
                entry.1 = .block other := by
              simpa [among, SortedSet.mem_toList] using kept
            obtain ⟨tree, member, isAlternative⟩ := exists_of_mem_left related isEntry
            exact .inl (List.mem_flatMap.2
              ⟨tree, member, (isAlternative.blocks_iff id).2 (same ▸ under)⟩)
      · rintro (here | ⟨entry, kept, under⟩)
        · obtain ⟨entry, isEntry, under⟩ := holds here
          exact .inr (children.exists_of_under ordered
            (isOf.hangs_of_entry checked owns several isEntry) under)
        · exact .inr ⟨entry, List.mem_of_mem_filter kept, under⟩
    · intro entry kept id here under
      rw [Tree.blocks_merge] at here
      obtain ⟨other, isEntry, underOther⟩ := holds here
      exact notEntry kept isEntry (isOf.eq_of_under checked owns
        (children.hang (List.mem_of_mem_filter kept))
        (isOf.hangs_of_entry checked owns several isEntry) under underOther)
    · intro entry kept coord target plain source back
      rw [Tree.blocks_merge] at back
      obtain ⟨other, isEntry, underOther⟩ := holds back
      exact notEntry kept isEntry (isOf.eq_of_under checked owns
        (children.hang (List.mem_of_mem_filter kept))
        (isOf.hangs_of_entry checked owns several isEntry) source
        (isOf.under_of_plain_to_entry checked owns isEntry plain source.1 underOther))
  · rw [heads]
    exact related.imp fun entry tree isAlternative => isAlternative.heads
  · rw [heads]
    exact exists_other_entry several
  · rw [heads]
    cases around with
    | none => exact absurd several Region.vertexOf_ne_root
    | some loop => exact fun id isEntry => isEntry
  · intro entry coords
    have distinct : (((Region.of graph forest around).entries.toList.map fun entry =>
        (entry, SortedSet.ofList (graph.inCoords entry))).map Prod.fst).Nodup := by
      rw [List.map_map]
      exact (List.map_id _).symm ▸ (Region.of graph forest around).entries.nodup
    rw [SortedMap.get?_ofList distinct, heads]
    simp only [List.mem_map, SortedSet.mem_toList, Prod.mk.injEq]
    constructor
    · rintro ⟨_, isEntry, rfl, rfl⟩
      exact ⟨isEntry, rfl⟩
    · rintro ⟨isEntry, rfl⟩
      exact ⟨entry, isEntry, rfl, rfl⟩
  · intro tree member way leaves
    rw [Tree.blocks_merge]
    exact isOf.leaves_of_alternative checked owns related several member leaves
  · intro tree member
    obtain ⟨entry, -, isAlternative⟩ := exists_of_mem_right related member
    exact isAlternative.fits
  · intro coord target edge outside under
    have before : coord.block ∉ blocksOf graph around := fun inside => outside ⟨inside, by
      have below := ordered.below_root (isOf.vertexOf_mem_order checked owns inside)
      rwa [show ((Region.of graph forest around).rooted graph).root = Vertex.root from several]
        at below⟩
    show target ∈ Tree.headsOfAll alternatives
    rw [heads]
    exact isOf.entry_of_edge checked owns edge before under.1

/-! ## The whole region -/

/-- Each vertex is assembled with what was placed below it. -/
theorem exists_assemble {site : Site} (isSite : site.IsOf graph forest around)
    (children : Children graph forest around top placed)
    (member : top ∈ ((Region.of graph forest around).rooted graph).order) :
    ∃ first rest, site.assemble placed top = .ok (first :: rest) ∧
      Placed graph forest around top first rest := by
  cases top with
  | root =>
      rcases (isOf.mem_order_iff checked owns).1 member with ⟨-, several⟩ | ⟨id, -, vertex⟩
      · exact isOf.exists_merge checked owns isSite several children
      · exact absurd vertex Region.vertexOf_ne_root
  | block id =>
      cases branching : graph.isBranching id with
      | true => exact isOf.exists_block_branching checked owns isSite children member branching
      | false => exact isOf.exists_block_straight checked owns isSite children member branching
  | loop number => exact isOf.exists_loop checked owns isSite children member

omit checked isOf owns in
/-- The subtrees under a vertex are placed one after the other. -/
theorem exists_placeAll {site : Site} {trees : List (Rose Vertex)}
    (placeable : ∀ tree ∈ trees, ∃ first rest, site.place tree = .ok (first :: rest) ∧
      Placed graph forest around tree.value first rest) :
    ∃ placed, site.placeAll trees = .ok placed ∧ placed.map Prod.fst = trees.map Rose.value ∧
      ∀ entry ∈ placed, ∃ first rest, entry.2 = first :: rest ∧
        Placed graph forest around entry.1 first rest := by
  induction trees with
  | nil => exact ⟨[], rfl, rfl, by simp⟩
  | cons tree rest ih =>
      obtain ⟨first, others, made, isPlaced⟩ := placeable tree (by simp)
      obtain ⟨placed, later, keys, all⟩ := ih fun other member =>
        placeable other (List.mem_cons_of_mem _ member)
      refine ⟨(tree.value, first :: others) :: placed, ?_, by simp [keys], ?_⟩
      · simp [Site.placeAll, made, later]
      · intro entry member
        rcases List.mem_cons.1 member with rfl | member
        · exact ⟨first, others, rfl, isPlaced⟩
        · exact all entry member

/-- A tree of vertices is placed from its leaves to its root. -/
theorem exists_place {site : Site} (isSite : site.IsOf graph forest around) {tree : Rose Vertex}
    (hangs : ((Region.of graph forest around).rooted graph).Hangs tree) :
    ∃ first rest, site.place tree = .ok (first :: rest) ∧
      Placed graph forest around tree.value first rest := by
  induction hangs with
  | @node top trees member values hang ih =>
      obtain ⟨placed, made, keys, all⟩ := exists_placeAll ih
      obtain ⟨first, rest, whole, isPlaced⟩ := isOf.exists_assemble checked owns isSite
        ⟨all, keys.trans values⟩ member
      exact ⟨first, rest, by simp [Site.place, made, whole], isPlaced⟩

/-- The top of a region is entered at the region's entries. -/
theorem entries_of_heads {heads : SortedSet BlockId}
    (isTop : HeadsOf graph forest around (Region.of graph forest around).top heads) :
    (∀ loop ∈ around, heads = loop.entries) ∧ (around = none → graph.entry ∈ heads) := by
  by_cases several : (Region.of graph forest around).top = .root
  · rw [several] at isTop
    cases around with
    | none => exact absurd several Region.vertexOf_ne_root
    | some loop => exact ⟨by rintro _ ⟨⟩; exact isTop, by simp⟩
  · obtain ⟨entry, single⟩ : ∃ entry, (Region.of graph forest around).entries.toList = [entry] := by
      unfold Region.top at several
      split at several
      · next entry single => exact ⟨entry, single⟩
      · exact absurd rfl several
    have only : (Region.of graph forest around).entries = .singleton entry :=
      SortedSet.ext fun id => by rw [← SortedSet.mem_toList, single]; simp
    have vertex : (Region.of graph forest around).top =
        (Region.of graph forest around).vertexOf entry := by
      unfold Region.top
      rw [single]
    rw [vertex] at isTop
    have isEntry : entry ∈ (Region.of graph forest around).entries := by simp [only]
    rcases (Region.of graph forest around).vertexOf_cases entry with
      ⟨block, direct⟩ | ⟨inner, nested, holds, isLoop⟩
    · rw [block] at isTop
      have same : heads = .singleton entry := isTop
      cases around with
      | none => exact ⟨by simp, fun _ => by
          have least : entry = graph.entry := SortedSet.mem_singleton.1 isEntry
          simp [same, least]⟩
      | some loop => exact ⟨by rintro _ ⟨⟩; rw [same, ← only]; rfl, by simp⟩
    · rw [isLoop] at isTop
      obtain ⟨other, among, sameId, same⟩ := isTop
      rw [Region.inner_of] at nested
      have isOther := owns.mem_all (Loop.mem_flattenAll_of_mem among)
      have isInner := owns.mem_all (Loop.mem_flattenAll_of_mem nested)
      cases isOf.eq_of_id isOther isInner sameId
      cases around with
      | none =>
          refine ⟨by simp, fun _ => ?_⟩
          have least : entry = graph.entry := SortedSet.mem_singleton.1 isEntry
          rw [same, isOf.entries_eq isOther]
          exact checked.mem_entriesOf.2 ⟨least ▸ holds, .inl rfl⟩
      | some loop =>
          exact absurd isEntry (((isOf.split_inside owns).nested inner among).free entry holds)

/-- A region becomes a tree that holds its blocks and is entered at its entries. -/
theorem exists_tree {site : Site} (isSite : site.IsOf graph forest around) :
    ∃ tree, site.tree = .ok tree ∧ Fits graph forest Bare around tree ∧
      (∀ id, id ∈ tree.blocks ↔ id ∈ blocksOf graph around) ∧
      (∀ loop ∈ around, tree.heads = loop.entries) ∧
      (around = none → graph.entry ∈ tree.heads) := by
  have ordered := isOf.ordered_rooted checked owns
  obtain ⟨first, rest, made, isPlaced⟩ := isOf.exists_place checked owns isSite
    (Rooted.hangs_dominatorTree ordered)
  rw [Rooted.value_dominatorTree] at isPlaced
  have whole (id : BlockId) : id ∈ (first :: rest).flatMap Tree.blocks ↔
      id ∈ blocksOf graph around := by
    rw [isPlaced.blocks_iff]
    exact ⟨fun under => under.1, fun inside =>
      ⟨inside, ordered.below_root (isOf.vertexOf_mem_order checked owns inside)⟩⟩
  obtain ⟨tree, sequence, fits, blocks, heads⟩ := exists_ofSequence checked isPlaced.fits
    isPlaced.flat isPlaced.chain fun {way next} leads outside inner =>
      isPlaced.entered leads (fun under => outside ((isPlaced.blocks_iff _).2 under))
        ((isPlaced.blocks_iff _).1 inner)
  refine ⟨tree, ?_, fits, fun id => blocks ▸ whole id, ?_⟩
  · unfold Site.tree
    rw [isSite.view_eq]
    simp only [made, ok_bind, sequence]
  · rw [heads]
    exact isOf.entries_of_heads checked owns isPlaced.heads

end LoopForest.IsOf

end Assembly

end GotoFree
