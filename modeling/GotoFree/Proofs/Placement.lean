import GotoFree.Proofs.Parts
import GotoFree.Proofs.Region

/-!
# Placing the blocks of a region

The nodes made of a dominator subtree (`Placed`) hold exactly the blocks below its top, are entered
at the first node, and form a chain. This goes up the dominator tree: what hangs under a vertex is
entered through it alone, so that it may be nested in an arm of the vertex or follow it in reverse
post-order (`Placed.assemble`).
-/

namespace GotoFree

open LoopForest

section Placement

variable {graph : BlockGraph} {forest : LoopForest} {around : Option Loop}

/-- A block of the region whose vertex lies below another one in the dominator tree. -/
def Under (graph : BlockGraph) (forest : LoopForest) (around : Option Loop) (top : Vertex)
    (id : BlockId) : Prop :=
  id ∈ blocksOf graph around ∧ ((Region.of graph forest around).rooted graph).Below top
    ((Region.of graph forest around).vertexOf id)

/-- The blocks through which a vertex is entered. -/
def HeadsOf (graph : BlockGraph) (forest : LoopForest) (around : Option Loop) :
    Vertex → SortedSet BlockId → Prop
  | .root, heads => heads = (Region.of graph forest around).entries
  | .block id, heads => heads = .singleton id
  | .loop number, heads =>
      ∃ loop ∈ forest.inside around, loop.id = number ∧ heads = loop.entries

/-- The nodes made of the dominator subtree of a vertex. -/
structure Placed (graph : BlockGraph) (forest : LoopForest) (around : Option Loop) (top : Vertex)
    (first : Tree) (rest : List Tree) : Prop where
  fits : ∀ tree ∈ first :: rest, Fits graph forest Bare around tree
  flat : ∀ tree ∈ first :: rest, tree.isSequence = false
  chain : Chain graph forest (first :: rest)
  blocks_iff : ∀ id, id ∈ (first :: rest).flatMap Tree.blocks ↔
    Under graph forest around top id
  entered : ∀ {coord target}, graph.HasEdge coord target →
    ¬ Under graph forest around top coord.block → Under graph forest around top target →
    target ∈ first.heads
  heads : HeadsOf graph forest around top first.heads

namespace LoopForest.IsOf

variable (checked : graph.Checked) (isOf : forest.IsOf graph) (owns : forest.Owns around)

include checked isOf owns

/-! ## Plain edges in the view -/

/-- A plain edge inside a region leads to none of its entries. -/
theorem not_entry_of_plain {coord : Coord} {target : BlockId}
    (plain : Plain graph forest coord target) (inside : coord.block ∈ blocksOf graph around) :
    target ∉ (Region.of graph forest around).entries := by
  intro isEntry
  have free := isOf.continued?_eq_none_iff.1 plain.2
  cases around with
  | some loop => exact free loop (owns loop rfl) isEntry inside
  | none =>
      have same : target = graph.entry := SortedSet.mem_singleton.1 isEntry
      subst same
      -- The edge closes a cycle through the entry, so both ends lie in one loop.
      have known : ∀ {id}, id ∈ graph.ids → id ∈ graph.idSet := BlockGraph.mem_idSet.2
      have step : ∀ {source next}, next ∈ graph.next source →
          graph.Inner graph.idSet .empty source next := fun {source next} edge => by
        obtain ⟨way, rfl, leads⟩ := checked.mem_next_iff.1 edge
        exact ⟨known (BlockGraph.Checked.source_mem leads),
          known (checked.edge_target_mem leads), SortedSet.not_mem_empty, edge⟩
      have path : Relation.ReflTransGen (graph.Inner graph.idSet .empty) graph.entry
          coord.block :=
        Relation.ReflTransGen.mono (fun _ _ edge => step edge) _ _
          (checked.reached (BlockGraph.Checked.source_mem plain.1))
      have back := step (checked.mem_next_iff.2 ⟨coord, rfl, plain.1⟩)
      have forth : Relation.TransGen (graph.Inner graph.idSet .empty) graph.entry coord.block := by
        rcases Relation.reflTransGen_iff_eq_or_transGen.1 path with same | path
        · rw [same] at back ⊢
          exact .single back
        · exact path
      obtain ⟨loop, top, here, there⟩ := isOf.split.whole _ _ ⟨forth, .single back⟩
      have isLoop : loop ∈ forest.all := Loop.mem_flattenAll_of_mem top
      refine free loop isLoop ?_ there
      rw [isOf.entries_eq isLoop]
      exact checked.mem_entriesOf.2 ⟨here, .inl rfl⟩

/-- A plain edge inside a region that is no edge of its view stays in a nested loop. -/
theorem crossing_or_nested {coord : Coord} {target : BlockId}
    (plain : Plain graph forest coord target) (inside : coord.block ∈ blocksOf graph around)
    (among : target ∈ blocksOf graph around) :
    (coord, target) ∈ (Region.of graph forest around).crossings graph ∨
      ∃ loop ∈ forest.inside around, coord.block ∈ loop.body ∧ target ∈ loop.body := by
  have notEntry := isOf.not_entry_of_plain checked owns plain inside
  by_cases same : (Region.of graph forest around).vertexOf coord.block =
      (Region.of graph forest around).vertexOf target
  · right
    rcases isOf.eq_or_mem_of_vertexOf_eq owns same with loops | ⟨loop, nested, here, there⟩
    · -- A block that leads to itself lies on a cycle, and so in a nested loop.
      have step : graph.Inner (blocksOf graph around) (cutOf around) coord.block target :=
        ⟨inside, among, fun cut => notEntry (cut_subset cut),
          checked.mem_next_iff.2 ⟨coord, rfl, plain.1⟩⟩
      rw [loops] at step
      obtain ⟨loop, nested, here, -⟩ :=
        (isOf.split_inside owns).whole _ _ ⟨.single step, .single step⟩
      exact ⟨loop, nested, loops ▸ here, here⟩
    · exact ⟨loop, nested, here, there⟩
  · exact .inl ((mem_crossings_iff checked).2 ⟨plain.1, inside, among, notEntry, same⟩)

omit checked isOf owns in
/-- An edge that crosses between vertices links them. -/
theorem link_of_crossing {coord : Coord} {target : BlockId}
    (crossing : (coord, target) ∈ (Region.of graph forest around).crossings graph) :
    (Region.of graph forest around).vertexOf target ∈
      ((Region.of graph forest around).rooted graph).next
        ((Region.of graph forest around).vertexOf coord.block) :=
  mem_next_iff.2 (.inr ⟨coord, target, crossing, rfl, rfl⟩)

/-- The vertex of each block of a region is reached. -/
theorem vertexOf_mem_order {id : BlockId} (inside : id ∈ blocksOf graph around) :
    (Region.of graph forest around).vertexOf id ∈
      ((Region.of graph forest around).rooted graph).order :=
  (isOf.mem_order_iff checked owns).2 (.inr ⟨id, inside, rfl⟩)

/-- An edge enters what lies under a vertex at that vertex. -/
theorem vertexOf_of_enters {top : Vertex} (inner : top ≠ .root) {coord : Coord}
    {target : BlockId} (edge : graph.HasEdge coord target)
    (outside : ¬ Under graph forest around top coord.block)
    (under : Under graph forest around top target) :
    (Region.of graph forest around).vertexOf target = top := by
  have ordered := isOf.ordered_rooted checked owns
  have entry (isEntry : target ∈ (Region.of graph forest around).entries) :
      (Region.of graph forest around).vertexOf target = top := by
    by_cases several : (Region.of graph forest around).top = .root
    · have link : (Region.of graph forest around).vertexOf target ∈
          ((Region.of graph forest around).rooted graph).next .root := by
        rw [isOf.vertexOf_entry owns several isEntry]
        exact mem_next_iff.2 (.inl ⟨several, rfl, target, isEntry, rfl⟩)
      have member := (isOf.mem_order_iff checked owns).2 (.inl ⟨rfl, several⟩)
      refine Rooted.Ordered.Below.eq_of_enters ordered member link (fun below => ?_) under.2
      rcases below with same | below
      · exact inner same.symm
      · rw [← several] at below
        exact ordered.not_mem_dominated_root below
    · have root : (Region.of graph forest around).vertexOf target =
          ((Region.of graph forest around).rooted graph).root := by
        show _ = (Region.of graph forest around).top
        unfold Region.top at several ⊢
        split at several
        · next only single =>
          have same : target = only := by
            have member : target ∈ (Region.of graph forest around).entries.toList := isEntry
            simpa [single] using member
          rw [same]
        · exact absurd rfl several
      rcases under.2 with same | below
      · exact same
      · rw [root] at below
        exact absurd below ordered.not_mem_dominated_root
  by_cases before : coord.block ∈ blocksOf graph around
  · by_cases isEntry : target ∈ (Region.of graph forest around).entries
    · exact entry isEntry
    · have notBelow : ¬ ((Region.of graph forest around).rooted graph).Below top
          ((Region.of graph forest around).vertexOf coord.block) := fun below =>
        outside ⟨before, below⟩
      have crossing := (mem_crossings_iff checked).2 ⟨edge, before, under.1, isEntry,
        fun same => notBelow (same ▸ under.2)⟩
      exact Rooted.Ordered.Below.eq_of_enters ordered
        (isOf.vertexOf_mem_order checked owns before) (link_of_crossing crossing) notBelow under.2
  · exact entry (isOf.entry_of_edge checked owns edge before under.1)

/-- An edge of the view continues no loop. -/
theorem plain_of_crossing {coord : Coord} {target : BlockId}
    (crossing : (coord, target) ∈ (Region.of graph forest around).crossings graph) :
    Plain graph forest coord target := by
  obtain ⟨edge, inside, among, notEntry, differ⟩ := (mem_crossings_iff checked).1 crossing
  refine ⟨edge, isOf.continued?_eq_none_iff.2 fun loop isLoop isEntry holds => ?_⟩
  have notNested : loop ∉ Loop.flattenAll (forest.inside around) := by
    intro nested
    obtain ⟨outer, direct, within⟩ := Loop.mem_flattenAll.1 nested
    have isOuter := owns.mem_all (Loop.mem_flattenAll_of_mem direct)
    have target' := isOf.entry_mem_body isLoop isEntry
    refine differ ?_
    rcases Loop.mem_flatten.1 within with rfl | within
    · exact isOf.vertexOf_eq_of_mem owns direct holds target'
    · exact isOf.vertexOf_eq_of_mem owns direct (isOf.nested_body isOuter within holds).1
        (isOf.nested_body isOuter within target').1
  cases around with
  | none => exact notNested isLoop
  | some outer =>
      have isOuter := owns outer rfl
      rcases isOf.position isOuter isLoop inside holds with rfl | nested | nested
      · exact notEntry isEntry
      · exact notNested nested
      · exact (isOf.nested_body isLoop nested among).2 isEntry

/-- An edge that crosses leads on in the order. -/
theorem position_lt_of_crossing {coord : Coord} {target : BlockId}
    (crossing : (coord, target) ∈ (Region.of graph forest around).crossings graph) :
    ((Region.of graph forest around).rooted graph).position
        ((Region.of graph forest around).vertexOf coord.block) <
      ((Region.of graph forest around).rooted graph).position
        ((Region.of graph forest around).vertexOf target) :=
  (isOf.ordered_rooted checked owns).position_lt_of_edge
    (isOf.vertexOf_mem_order checked owns ((mem_crossings_iff checked).1 crossing).2.1)
    (link_of_crossing crossing)

/-- What lies under a node does not stand in front of it. -/
theorem position_le_of_under {top : Vertex} {id : BlockId}
    (under : Under graph forest around top id) :
    ((Region.of graph forest around).rooted graph).position top ≤
      ((Region.of graph forest around).rooted graph).position
        ((Region.of graph forest around).vertexOf id) :=
  (isOf.ordered_rooted checked owns).position_le_of_below under.2

/-- What lies under a node lies under what that hangs below. -/
theorem under_of_hangs {top child : Vertex}
    (hangs : ((Region.of graph forest around).rooted graph).idom? child = some top)
    {id : BlockId} (under : Under graph forest around child id) :
    Under graph forest around top id :=
  ⟨under.1, Rooted.Ordered.Below.trans (isOf.ordered_rooted checked owns)
    (.inr (Rooted.Ordered.dominated_of_idom? hangs)) under.2⟩

/-- What lies under two vertices that hang under one lies under the same one. -/
theorem eq_of_under {top first second : Vertex}
    (left : ((Region.of graph forest around).rooted graph).idom? first = some top)
    (right : ((Region.of graph forest around).rooted graph).idom? second = some top)
    {id : BlockId} (underFirst : Under graph forest around first id)
    (underSecond : Under graph forest around second id) : first = second :=
  (isOf.ordered_rooted checked owns).eq_of_below_both left right underFirst.2 underSecond.2

/-- A plain edge that enters what lies under a vertex comes from an earlier vertex. -/
theorem position_lt_of_enters {top : Vertex} (inner : top ≠ .root) {coord : Coord}
    {target : BlockId} (plain : Plain graph forest coord target)
    (inside : coord.block ∈ blocksOf graph around)
    (outside : ¬ Under graph forest around top coord.block)
    (under : Under graph forest around top target) :
    ((Region.of graph forest around).rooted graph).position
        ((Region.of graph forest around).vertexOf coord.block) <
      ((Region.of graph forest around).rooted graph).position top := by
  have vertex := isOf.vertexOf_of_enters checked owns inner plain.1 outside under
  rcases isOf.crossing_or_nested checked owns plain inside under.1 with
    crossing | ⟨loop, nested, here, there⟩
  · exact vertex ▸ isOf.position_lt_of_crossing checked owns crossing
  · have same := isOf.vertexOf_eq_of_mem owns nested here there
    exact absurd ⟨inside, same ▸ under.2⟩ outside

/-- The root hangs below nothing. -/
theorem ne_root_of_hangs {top child : Vertex}
    (hangs : ((Region.of graph forest around).rooted graph).idom? child = some top) :
    child ≠ .root := by
  rintro rfl
  have ordered := isOf.ordered_rooted checked owns
  have below := Rooted.Ordered.dominated_of_idom? hangs
  have member := (ordered.mem_dominated.1 below).1
  rcases (isOf.mem_order_iff checked owns).1 member with ⟨-, several⟩ | ⟨id, -, same⟩
  · rw [← several] at below
    exact ordered.not_mem_dominated_root below
  · exact Region.vertexOf_ne_root same

/-- A vertex is led to from the part under the one it hangs under, but for entries under a root. -/
theorem exists_crossing {top child : Vertex}
    (hangs : ((Region.of graph forest around).rooted graph).idom? child = some top)
    (notEntry : top = .root → ∀ entry ∈ (Region.of graph forest around).entries,
      child ≠ .block entry) :
    ∃ coord target, (coord, target) ∈ (Region.of graph forest around).crossings graph ∧
      (Region.of graph forest around).vertexOf target = child ∧
      Under graph forest around top coord.block ∧
      ¬ Under graph forest around child coord.block := by
  have ordered := isOf.ordered_rooted checked owns
  obtain ⟨source, -, link, below, outside⟩ := ordered.exists_source hangs
  rcases mem_next_iff.1 link with ⟨several, rfl, entry, isEntry, same⟩ |
    ⟨coord, target, crossing, rfl, reached⟩
  · have root : top = .root := by
      rcases below with same | below
      · exact same.symm
      · rw [← several] at below
        exact absurd below ordered.not_mem_dominated_root
    exact absurd same (notEntry root entry isEntry)
  · have inside := ((mem_crossings_iff checked).1 crossing).2.1
    exact ⟨coord, target, crossing, reached, ⟨inside, below⟩, fun under => outside under.2⟩

end LoopForest.IsOf

/-! ## A node and what follows it -/

/-- The nodes made of the subtrees that follow a node, in the order of the view. -/
structure Follow (graph : BlockGraph) (forest : LoopForest) (around : Option Loop) (top : Vertex)
    (node : Tree) (kept : List (Vertex × List Tree)) : Prop where
  placed : ∀ entry ∈ kept, ∃ first rest, entry.2 = first :: rest ∧
    Placed graph forest around entry.1 first rest
  hang : ∀ entry ∈ kept,
    ((Region.of graph forest around).rooted graph).idom? entry.1 = some top
  increasing : kept.Pairwise fun first second =>
    ((Region.of graph forest around).rooted graph).position first.1 <
      ((Region.of graph forest around).rooted graph).position second.1
  cover : ∀ id, Under graph forest around top id ↔
    id ∈ node.blocks ∨ ∃ entry ∈ kept, Under graph forest around entry.1 id
  apart : ∀ entry ∈ kept, ∀ id ∈ node.blocks, ¬ Under graph forest around entry.1 id
  ordered : ∀ entry ∈ kept, ∀ coord target, Plain graph forest coord target →
    Under graph forest around entry.1 coord.block → target ∉ node.blocks
  linked : top = .root → ∀ entry ∈ kept, ∀ id ∈ (Region.of graph forest around).entries,
    entry.1 ≠ .block id

/-- The blocks of what was kept are those under its vertex. -/
theorem Follow.mem_iff {top : Vertex} {node : Tree} {kept : List (Vertex × List Tree)}
    (follow : Follow graph forest around top node kept) {entry : Vertex × List Tree}
    (member : entry ∈ kept) {id : BlockId} :
    (∃ tree ∈ entry.2, id ∈ tree.blocks) ↔ Under graph forest around entry.1 id := by
  obtain ⟨first, rest, same, placed⟩ := follow.placed entry member
  rw [same, ← placed.blocks_iff, List.mem_flatMap]

/-- A node and the nodes that follow it form a chain. -/
theorem Follow.chain (checked : graph.Checked) (isOf : forest.IsOf graph)
    (owns : forest.Owns around) {top : Vertex} {node : Tree} {kept : List (Vertex × List Tree)}
    (follow : Follow graph forest around top node kept) :
    Chain graph forest (node :: (kept.map Prod.snd).flatten) := by
  have under {entry : Vertex × List Tree} (member : entry ∈ kept) {tree : Tree}
      (among : tree ∈ entry.2) {id : BlockId} (holds : id ∈ tree.blocks) :
      Under graph forest around entry.1 id :=
    (follow.mem_iff member).1 ⟨tree, among, holds⟩
  have pairs : kept.Pairwise fun first second => first ∈ kept ∧ second ∈ kept ∧
      ((Region.of graph forest around).rooted graph).position first.1 <
        ((Region.of graph forest around).rooted graph).position second.1 :=
    follow.increasing.imp_of_mem fun left right before => ⟨left, right, before⟩
  refine .join ?_ ?_ ?_ ?_ ?_ ?_
  · intro group member
    obtain ⟨entry, among, rfl⟩ := List.mem_map.1 member
    obtain ⟨first, rest, same, placed⟩ := follow.placed entry among
    exact same ▸ placed.chain
  · rw [List.pairwise_map]
    refine pairs.imp fun {first second} ⟨left, right, before⟩ one here two there id holds also => ?_
    have same := isOf.eq_of_under checked owns (follow.hang first left)
      (follow.hang second right) (under left here holds) (under right there also)
    rw [same] at before
    exact Nat.lt_irrefl _ before
  · rw [List.pairwise_map]
    refine pairs.imp fun {first second} ⟨left, right, before⟩ one here two there coord target plain
      source back => ?_
    -- An edge back would enter the earlier part at its top, which stands before its source.
    have from' := under right there source
    have outside : ¬ Under graph forest around first.1 coord.block := fun also => by
      have same := isOf.eq_of_under checked owns (follow.hang first left)
        (follow.hang second right) also from'
      rw [same] at before
      exact Nat.lt_irrefl _ before
    have rise := isOf.position_lt_of_enters checked owns
      (isOf.ne_root_of_hangs checked owns (follow.hang first left)) plain from'.1 outside
      (under left here back)
    have reach := isOf.position_le_of_under checked owns from'
    omega
  · intro group member tree among id holds also
    obtain ⟨entry, inside, rfl⟩ := List.mem_map.1 member
    exact follow.apart entry inside id holds (under inside among also)
  · intro group member tree among coord target plain source
    obtain ⟨entry, inside, rfl⟩ := List.mem_map.1 member
    exact follow.ordered entry inside coord target plain (under inside among source)
  · intro front tree rest back split
    obtain ⟨before, after, rfl, rfl, others⟩ := List.map_eq_append_iff.1 split
    obtain ⟨entry, later, rfl, group, rfl⟩ := List.map_eq_cons_iff.1 others
    have member : entry ∈ before ++ entry :: later := by simp
    obtain ⟨coord, target, crossing, vertex, source, outside⟩ :=
      isOf.exists_crossing checked owns (follow.hang entry member)
        fun root => follow.linked root entry member
    have plain := isOf.plain_of_crossing checked owns crossing
    have inside := ((IsOf.mem_crossings_iff checked).1 crossing).2.2.1
    have reached : Under graph forest around entry.1 target := ⟨inside, .inl vertex⟩
    refine ⟨coord, target, plain, ?_, ?_⟩
    · rcases (follow.cover coord.block).1 source with here | ⟨other, among, here⟩
      · exact ⟨node, by simp, here⟩
      · obtain ⟨earlier, within, holds⟩ := (follow.mem_iff among).2 here
        refine ⟨earlier, List.mem_cons_of_mem _ (List.mem_flatten.2 ⟨other.2, ?_, within⟩), holds⟩
        have rise := isOf.position_lt_of_crossing checked owns crossing
        have start := isOf.position_le_of_under checked owns here
        rw [vertex] at rise
        have increasing := follow.increasing
        rw [List.pairwise_append, List.pairwise_cons] at increasing
        rcases List.mem_append.1 among with first | last
        · exact List.mem_map_of_mem first
        · rcases List.mem_cons.1 last with rfl | last
          · exact absurd here outside
          · have fall := increasing.2.1.1 other last
            omega
    · obtain ⟨first, others, same, placed⟩ := follow.placed entry member
      rw [group] at same
      obtain ⟨rfl, rfl⟩ := List.cons_eq_cons.1 same
      have isHead := placed.entered plain.1 outside reached
      exact (placed.fits tree (by simp)).part.heads_mem target isHead

/-- A node with what follows it is what is made of the whole subtree. -/
theorem Follow.placed_node (checked : graph.Checked) (isOf : forest.IsOf graph)
    (owns : forest.Owns around) {top : Vertex} {node : Tree} {kept : List (Vertex × List Tree)}
    (follow : Follow graph forest around top node kept)
    (fits : Fits graph forest Bare around node) (flat : node.isSequence = false)
    (entered : ∀ {coord target}, graph.HasEdge coord target →
      ¬ Under graph forest around top coord.block → Under graph forest around top target →
      target ∈ node.heads)
    (heads : HeadsOf graph forest around top node.heads) :
    Placed graph forest around top node (kept.flatMap Prod.snd) where
  fits tree member := by
    rcases List.mem_cons.1 member with rfl | member
    · exact fits
    · obtain ⟨entry, among, within⟩ := List.mem_flatMap.1 member
      obtain ⟨first, rest, same, placed⟩ := follow.placed entry among
      exact placed.fits tree (same ▸ within)
  flat tree member := by
    rcases List.mem_cons.1 member with rfl | member
    · exact flat
    · obtain ⟨entry, among, within⟩ := List.mem_flatMap.1 member
      obtain ⟨first, rest, same, placed⟩ := follow.placed entry among
      exact placed.flat tree (same ▸ within)
  chain := List.flatMap_def ▸ follow.chain checked isOf owns
  blocks_iff id := by
    rw [follow.cover, List.flatMap_cons, List.mem_append]
    refine or_congr_right ?_
    constructor
    · intro member
      obtain ⟨tree, among, holds⟩ := List.mem_flatMap.1 member
      obtain ⟨entry, inside, within⟩ := List.mem_flatMap.1 among
      exact ⟨entry, inside, (follow.mem_iff inside).1 ⟨tree, within, holds⟩⟩
    · rintro ⟨entry, inside, under⟩
      obtain ⟨tree, within, holds⟩ := (follow.mem_iff inside).2 under
      exact List.mem_flatMap.2 ⟨tree, List.mem_flatMap.2 ⟨entry, inside, within⟩, holds⟩
  entered := entered
  heads := heads

end Placement

end GotoFree
