import GotoFree.Flow.Region
import GotoFree.Proofs.Dominance
import GotoFree.Proofs.Forest

/-!
# The acyclic view of a region

In the view of a region of a checked graph every cycle has gone into a vertex of its own
(`acyclic_next`), and every block is reached from the region's entries (`path_to_vertexOf`), so
that the view is made and its dominators have a tree (`view_ok`, `ordered_rooted`).
-/

namespace GotoFree

open Relation

/-- The region of a loop, or of the whole graph. -/
def Region.of (graph : BlockGraph) (forest : LoopForest) : Option Loop → Region
  | some loop => .ofLoop loop
  | none => .ofMethod graph forest

namespace Region

/-! ## Vertices -/

theorem vertexOf_ne_root {region : Region} {id : BlockId} : region.vertexOf id ≠ .root := by
  unfold vertexOf
  split <;> simp

/-- A block is its own vertex if no inner loop holds it. -/
theorem vertexOf_eq_block {region : Region} {id other : BlockId} :
    region.vertexOf id = .block other ↔ id = other ∧ ∀ loop ∈ region.inner, id ∉ loop.body := by
  unfold vertexOf
  split
  · next loop found =>
    have holds := List.find?_some found
    have member := List.mem_of_find?_eq_some found
    simp only [decide_eq_true_eq] at holds
    simp only [reduceCtorEq, false_iff, not_and, not_forall]
    exact fun _ => ⟨loop, member, not_not_intro holds⟩
  · next missing =>
    have direct : ∀ loop ∈ region.inner, id ∉ loop.body := by
      simpa using List.find?_eq_none.1 missing
    simp only [Vertex.block.injEq, iff_self_and]
    exact fun _ => direct

/-- A vertex of a block is that block, or a loop that holds it. -/
theorem vertexOf_cases (region : Region) (id : BlockId) :
    (region.vertexOf id = .block id ∧ ∀ loop ∈ region.inner, id ∉ loop.body) ∨
      ∃ loop ∈ region.inner, id ∈ loop.body ∧ region.vertexOf id = .loop loop.id := by
  unfold vertexOf
  split
  · next loop found =>
    exact .inr ⟨loop, List.mem_of_find?_eq_some found, by simpa using List.find?_some found, rfl⟩
  · next missing => exact .inl ⟨rfl, by simpa using List.find?_eq_none.1 missing⟩

end Region

section Regions

variable {graph : BlockGraph} {forest : LoopForest} {around : Option Loop}

open LoopForest

/-- The blocks of a region are those of the loop around it. -/
@[simp] theorem Region.blocks_of :
    (Region.of graph forest around).blocks = blocksOf graph around := by
  cases around <;> rfl

/-- The inner loops of a region are those inside the loop around it. -/
@[simp] theorem Region.inner_of :
    (Region.of graph forest around).inner = forest.inside around := by
  cases around <;> rfl

namespace LoopForest.IsOf

variable (checked : graph.Checked) (isOf : forest.IsOf graph) (owns : forest.Owns around)

include isOf owns

/-- The vertex of a block of a nested loop is that loop. -/
theorem vertexOf_eq_loop {id : BlockId} {loop : Loop} (nested : loop ∈ forest.inside around) :
    (Region.of graph forest around).vertexOf id = .loop loop.id ↔ id ∈ loop.body := by
  have known := owns.mem_all (Loop.mem_flattenAll_of_mem nested)
  rcases (Region.of graph forest around).vertexOf_cases id with
    ⟨vertex, direct⟩ | ⟨other, member, holds, vertex⟩
  · rw [Region.inner_of] at direct
    simp [vertex, direct loop nested]
  · rw [Region.inner_of] at member
    rw [vertex, Vertex.loop.injEq]
    constructor
    · intro same
      have isOther := owns.mem_all (Loop.mem_flattenAll_of_mem member)
      exact isOf.eq_of_id isOther known same ▸ holds
    · exact fun here => congrArg Loop.id
        ((isOf.split_inside owns).eq_of_mem member nested holds here)

/-- Two blocks of one vertex are the same, or in one inner loop. -/
theorem eq_or_mem_of_vertexOf_eq {first second : BlockId}
    (same : (Region.of graph forest around).vertexOf first =
      (Region.of graph forest around).vertexOf second) :
    first = second ∨ ∃ loop ∈ forest.inside around, first ∈ loop.body ∧ second ∈ loop.body := by
  rcases (Region.of graph forest around).vertexOf_cases second with
    ⟨vertex, -⟩ | ⟨loop, member, holds, vertex⟩
  · rw [vertex, Region.vertexOf_eq_block] at same
    exact .inl same.1
  · rw [Region.inner_of] at member
    rw [vertex, isOf.vertexOf_eq_loop owns member] at same
    exact .inr ⟨loop, member, same, holds⟩

/-- Two blocks of an inner loop have one vertex. -/
theorem vertexOf_eq_of_mem {first second : BlockId} {loop : Loop}
    (nested : loop ∈ forest.inside around) (left : first ∈ loop.body) (right : second ∈ loop.body) :
    (Region.of graph forest around).vertexOf first =
      (Region.of graph forest around).vertexOf second := by
  rw [(isOf.vertexOf_eq_loop owns nested).2 left, (isOf.vertexOf_eq_loop owns nested).2 right]

/-- The blocks of a region are blocks of the graph. -/
theorem blocksOf_known {id : BlockId} (member : id ∈ blocksOf graph around) : id ∈ graph.ids := by
  cases around with
  | none => exact BlockGraph.mem_idSet.1 member
  | some loop => exact isOf.mem_ids (owns loop rfl) member

/-! ## Entries -/

include checked in
/-- The entries of a region are in it. -/
theorem entry_mem_blocks {id : BlockId}
    (isEntry : id ∈ (Region.of graph forest around).entries) : id ∈ blocksOf graph around := by
  cases around with
  | none =>
      rw [show (Region.of graph forest none).entries = SortedSet.singleton graph.entry from rfl,
        SortedSet.mem_singleton] at isEntry
      exact BlockGraph.mem_idSet.2 (isEntry ▸ checked.entry_mem)
  | some loop => exact isOf.entry_mem_body (owns loop rfl) isEntry

include checked in
/-- An edge from outside of a region leads to one of its entries. -/
theorem entry_of_edge {coord : Coord} {target : BlockId} (edge : graph.HasEdge coord target)
    (outside : coord.block ∉ blocksOf graph around) (inside : target ∈ blocksOf graph around) :
    target ∈ (Region.of graph forest around).entries := by
  cases around with
  | none => exact absurd (BlockGraph.mem_idSet.2 (BlockGraph.Checked.source_mem edge)) outside
  | some loop =>
      rw [show (Region.of graph forest (some loop)).entries = loop.entries from rfl,
        isOf.entries_eq (owns loop rfl)]
      exact checked.mem_entriesOf_of_edge edge outside inside

include checked in
/-- The entry of the graph is an entry of its region. -/
theorem entry_mem_entries (inside : graph.entry ∈ blocksOf graph around) :
    graph.entry ∈ (Region.of graph forest around).entries := by
  cases around with
  | none => exact SortedSet.mem_singleton.2 rfl
  | some loop =>
      rw [show (Region.of graph forest (some loop)).entries = loop.entries from rfl,
        isOf.entries_eq (owns loop rfl)]
      exact checked.mem_entriesOf.2 ⟨inside, .inl rfl⟩

omit isOf owns in
/-- What is cut from a region is an entry of it. -/
theorem cut_subset {id : BlockId} (member : id ∈ cutOf around) :
    id ∈ (Region.of graph forest around).entries := by
  cases around with
  | none => exact absurd member SortedSet.not_mem_empty
  | some loop => exact member

/-- A region with several entries has them as vertices. -/
theorem vertexOf_entry (several : (Region.of graph forest around).top = .root) {id : BlockId}
    (isEntry : id ∈ (Region.of graph forest around).entries) :
    (Region.of graph forest around).vertexOf id = .block id := by
  cases around with
  | none => exact absurd several Region.vertexOf_ne_root
  | some loop =>
      refine Region.vertexOf_eq_block.2 ⟨rfl, fun inner member holds => ?_⟩
      rw [Region.inner_of] at member
      exact (((isOf.split_inside owns).nested inner member).free id holds) isEntry

/-! ## Links -/

omit isOf owns in
include checked in
/-- An edge crosses a region if it leads from one vertex to another one and avoids the cut. -/
theorem mem_crossings_iff {coord : Coord} {target : BlockId} :
    (coord, target) ∈ (Region.of graph forest around).crossings graph ↔
      graph.HasEdge coord target ∧ coord.block ∈ blocksOf graph around ∧
        target ∈ blocksOf graph around ∧ target ∉ (Region.of graph forest around).entries ∧
        (Region.of graph forest around).vertexOf coord.block ≠
          (Region.of graph forest around).vertexOf target := by
  simp only [Region.crossings, Region.blocks_of, List.mem_flatMap, SortedSet.mem_toList,
    List.mem_filter, checked.hasEdge_iff, ne_eq, Bool.and_eq_true, decide_eq_true_eq]
  constructor
  · rintro ⟨_, inside, ⟨rfl, edge⟩, ⟨among, inner⟩, differ⟩
    exact ⟨edge, inside, among, inner, differ⟩
  · rintro ⟨edge, inside, among, inner, differ⟩
    exact ⟨_, inside, ⟨rfl, edge⟩, ⟨among, inner⟩, differ⟩

omit isOf owns in
include checked in
/-- An edge that crosses stays in the region. -/
theorem inner_of_crossing {coord : Coord} {target : BlockId}
    (crossing : (coord, target) ∈ (Region.of graph forest around).crossings graph) :
    graph.Inner (blocksOf graph around) (cutOf around) coord.block target := by
  obtain ⟨edge, inside, among, inner, -⟩ := (mem_crossings_iff checked).1 crossing
  exact ⟨inside, among, fun cut => inner (cut_subset cut),
    checked.mem_next_iff.2 ⟨coord, rfl, edge⟩⟩

include checked in
/-- Within one vertex there is a path from where it is entered to where it is left. -/
theorem path_in_vertex {into out : Coord} {first second target : BlockId}
    (enters : (into, first) ∈ (Region.of graph forest around).crossings graph)
    (leaves : (out, target) ∈ (Region.of graph forest around).crossings graph)
    (source : out.block = second)
    (same : (Region.of graph forest around).vertexOf first =
      (Region.of graph forest around).vertexOf second) :
    ReflTransGen (graph.Inner (blocksOf graph around) (cutOf around)) first second := by
  rcases isOf.eq_or_mem_of_vertexOf_eq owns same with rfl | ⟨loop, nested, here, there⟩
  · exact .refl
  · obtain ⟨edge, -, -, -, differ⟩ := (mem_crossings_iff checked).1 enters
    obtain ⟨edgeOut, -⟩ := (mem_crossings_iff checked).1 leaves
    have isNested := (isOf.split_inside owns).nested loop nested
    have isEntry : first ∈ loop.entries := by
      rw [isNested.entries_eq]
      refine checked.mem_entriesOf_of_edge edge (fun before => differ ?_) here
      exact isOf.vertexOf_eq_of_mem owns nested before here
    have follows : target ∈ graph.next second :=
      checked.mem_next_iff.2 ⟨out, source, edgeOut⟩
    exact (isNested.connected first isEntry second there target follows).there.to_reflTransGen

omit isOf owns in
/-- A vertex is followed by the entries, if it is the root, or by the targets of edges that cross.
-/
theorem mem_next_iff {first second : Vertex} :
    second ∈ (Region.of graph forest around).next graph first ↔
      ((Region.of graph forest around).top = .root ∧ first = .root ∧
        ∃ entry ∈ (Region.of graph forest around).entries, second = .block entry) ∨
      ∃ coord target, (coord, target) ∈ (Region.of graph forest around).crossings graph ∧
        (Region.of graph forest around).vertexOf coord.block = first ∧
        (Region.of graph forest around).vertexOf target = second := by
  have rooted : (first, second) ∈ (Region.of graph forest around).rootLinks ↔
      (Region.of graph forest around).top = .root ∧ first = .root ∧
        ∃ entry ∈ (Region.of graph forest around).entries, second = .block entry := by
    unfold Region.rootLinks
    split
    · next several =>
      simp only [List.mem_map, SortedSet.mem_toList, Prod.mk.injEq, several, true_and]
      constructor
      · rintro ⟨entry, isEntry, rfl, rfl⟩
        exact ⟨rfl, entry, isEntry, rfl⟩
      · rintro ⟨rfl, entry, isEntry, rfl⟩
        exact ⟨entry, isEntry, rfl, rfl⟩
    · next single => simp [single]
  have listed : second ∈ (Region.of graph forest around).next graph first ↔
      (first, second) ∈ (Region.of graph forest around).rootLinks ∨
        (first, second) ∈ (Region.of graph forest around).blockLinks graph := by
    simp [Region.next]
  rw [listed, rooted]
  simp [Region.blockLinks]

omit isOf owns in
/-- Behind every link stands an edge that crosses. -/
theorem crossing_of_link {first second : Vertex} (inner : first ≠ .root)
    (link : second ∈ (Region.of graph forest around).next graph first) :
    ∃ coord target, (coord, target) ∈ (Region.of graph forest around).crossings graph ∧
      (Region.of graph forest around).vertexOf coord.block = first ∧
      (Region.of graph forest around).vertexOf target = second := by
  rcases mem_next_iff.1 link with ⟨-, root, -⟩ | crossing
  · exact absurd root inner
  · exact crossing

omit isOf owns in
/-- No link leads to the root. -/
theorem ne_root_of_link {first second : Vertex}
    (link : second ∈ (Region.of graph forest around).next graph first) : second ≠ .root := by
  rcases mem_next_iff.1 link with ⟨-, -, _, -, rfl⟩ | ⟨_, _, -, -, rfl⟩
  · simp
  · exact Region.vertexOf_ne_root

include checked in
/-- A path in the view is a path in the graph, from a block where its first vertex is left to one
where its last vertex is entered. -/
theorem path_of_links {first second : Vertex} (inner : first ≠ .root)
    (path : TransGen (Leads ((Region.of graph forest around).next graph)) first second) :
    ∃ out into : Coord, ∃ next target : BlockId,
      (out, next) ∈ (Region.of graph forest around).crossings graph ∧
      (into, target) ∈ (Region.of graph forest around).crossings graph ∧
      (Region.of graph forest around).vertexOf out.block = first ∧
      (Region.of graph forest around).vertexOf target = second ∧
      TransGen (graph.Inner (blocksOf graph around) (cutOf around)) out.block target := by
  induction path with
  | single link =>
      obtain ⟨coord, target, crossing, source, reached⟩ := crossing_of_link inner link
      exact ⟨coord, coord, target, target, crossing, crossing, source, reached,
        .single (inner_of_crossing checked crossing)⟩
  | tail path link ih =>
      obtain ⟨out, into, next, middle, leaves, enters, source, reached, steps⟩ := ih
      obtain ⟨coord, target, crossing, from', reached'⟩ :=
        crossing_of_link (reached ▸ Region.vertexOf_ne_root) link
      have through := isOf.path_in_vertex checked owns enters crossing rfl
        (reached.trans from'.symm)
      exact ⟨out, coord, next, target, leaves, crossing, source, reached',
        (steps.trans_left through).tail (inner_of_crossing checked crossing)⟩

include checked in
/-- All cycles of a region have gone into its vertices. -/
theorem acyclic_next :
    Acyclic ((Region.of graph forest around).next graph) := by
  intro vertex cycle
  have inner : vertex ≠ .root := by
    obtain ⟨_, -, link⟩ := TransGen.tail'_iff.1 cycle
    exact ne_root_of_link link
  obtain ⟨middle, link, back⟩ := TransGen.head'_iff.1 cycle
  obtain ⟨coord, target, crossing, source, reached⟩ := crossing_of_link inner link
  obtain ⟨edge, -, -, -, differ⟩ := (mem_crossings_iff checked).1 crossing
  rcases reflTransGen_iff_eq_or_transGen.1 back with same | back
  · exact differ (source.trans (same.trans reached.symm))
  · obtain ⟨out, into, next, last, leaves, enters, source', reached', steps⟩ :=
      isOf.path_of_links checked owns (reached ▸ Region.vertexOf_ne_root) back
    -- The two ends of the first link lie on a cycle of the graph, and so in one nested loop.
    have forth := inner_of_crossing checked crossing
    have through := isOf.path_in_vertex checked owns crossing leaves rfl
      (reached.trans source'.symm)
    have closing := isOf.path_in_vertex checked owns enters crossing rfl
      (reached'.trans source.symm)
    have returns := (TransGen.trans_right through steps).trans_left closing
    obtain ⟨loop, nested, here, there⟩ :=
      (isOf.split_inside owns).whole _ _ ⟨.single forth, returns⟩
    exact differ (isOf.vertexOf_eq_of_mem owns nested here there)

/-! ## The view -/

/-- A path leads from the top to each entry. -/
theorem path_to_entry {id : BlockId}
    (isEntry : id ∈ (Region.of graph forest around).entries) :
    ReflTransGen (Leads ((Region.of graph forest around).next graph))
      (Region.of graph forest around).top ((Region.of graph forest around).vertexOf id) := by
  by_cases several : (Region.of graph forest around).top = .root
  · rw [several, isOf.vertexOf_entry owns several isEntry]
    exact .single (mem_next_iff.2 (.inl ⟨several, rfl, id, isEntry, rfl⟩))
  · unfold Region.top at several ⊢
    split at several
    · next entry single =>
      have same : id = entry := by
        have member : id ∈ (Region.of graph forest around).entries.toList := isEntry
        simpa [single] using member
      rw [same]
    · exact absurd rfl several

include checked in
/-- Every block is reached from the entries of its region. -/
theorem path_to_vertexOf {id : BlockId} (inside : id ∈ blocksOf graph around) :
    ReflTransGen (Leads ((Region.of graph forest around).next graph))
      (Region.of graph forest around).top ((Region.of graph forest around).vertexOf id) := by
  have path := checked.reached (isOf.blocksOf_known owns inside)
  induction path with
  | refl => exact isOf.path_to_entry owns (isOf.entry_mem_entries checked owns inside)
  | @tail source target path step ih =>
      obtain ⟨coord, rfl, edge⟩ := checked.mem_next_iff.1 step
      by_cases before : coord.block ∈ blocksOf graph around
      · by_cases isEntry : target ∈ (Region.of graph forest around).entries
        · exact isOf.path_to_entry owns isEntry
        · by_cases same : (Region.of graph forest around).vertexOf coord.block =
              (Region.of graph forest around).vertexOf target
          · exact same ▸ ih before
          · have crossing := (mem_crossings_iff checked).2 ⟨edge, before, inside, isEntry, same⟩
            exact (ih before).tail
              (mem_next_iff.2 (.inr ⟨coord, target, crossing, rfl, rfl⟩))
      · exact isOf.path_to_entry owns
          (isOf.entry_of_edge checked owns edge before inside)

end LoopForest.IsOf

namespace LoopForest.IsOf

variable (checked : graph.Checked) (isOf : forest.IsOf graph) (owns : forest.Owns around)

include checked isOf owns

omit checked in
/-- Every region has an entry. -/
theorem exists_entry : ∃ id, id ∈ (Region.of graph forest around).entries := by
  cases around with
  | none => exact ⟨graph.entry, SortedSet.mem_singleton.2 rfl⟩
  | some loop => exact ⟨loop.head, isOf.head_mem (owns loop rfl)⟩

/-- A region is not refused for lack of entries. -/
theorem requireEntries_ok : (Region.of graph forest around).requireEntries = .ok () := by
  unfold Region.requireEntries
  split
  · next several =>
    obtain ⟨entry, isEntry⟩ := isOf.exists_entry owns
    have nonempty : (Region.of graph forest around).entries.isEmpty = false := by
      rw [← Bool.not_eq_true, SortedSet.isEmpty_iff]
      exact fun none => none entry isEntry
    rw [nonempty]
    split
    · contradiction
    · split
      · next id found =>
        have member := List.mem_of_find?_eq_some found
        have broken := List.find?_some found
        simp only [Bool.or_eq_true, decide_eq_true_eq] at broken
        rcases broken with outside | differs
        · exact absurd (Region.blocks_of ▸ isOf.entry_mem_blocks checked owns member) outside
        · exact absurd (isOf.vertexOf_entry owns several member) differs
      · rfl
  · rfl

/-- The top of a region is the root, or the vertex of its only entry. -/
theorem top_known : (Region.of graph forest around).top = .root ∨
    ∃ id ∈ blocksOf graph around,
      (Region.of graph forest around).top = (Region.of graph forest around).vertexOf id := by
  unfold Region.top
  split
  · next entry single =>
    have isEntry : entry ∈ (Region.of graph forest around).entries := by
      rw [← SortedSet.mem_toList, single]
      exact List.mem_singleton_self _
    exact .inr ⟨entry, isOf.entry_mem_blocks checked owns isEntry, rfl⟩
  · exact .inl rfl

/-- Links stay among the vertices of the region. -/
theorem closed_next : Closed ((Region.of graph forest around).next graph)
    (.root :: (blocksOf graph around).toList.map (Region.of graph forest around).vertexOf) := by
  intro first _ second link
  rcases mem_next_iff.1 link with ⟨several, -, entry, isEntry, rfl⟩ |
    ⟨coord, target, crossing, -, rfl⟩
  · rw [← isOf.vertexOf_entry owns several isEntry]
    exact List.mem_cons_of_mem _
      (List.mem_map_of_mem (isOf.entry_mem_blocks checked owns isEntry))
  · exact List.mem_cons_of_mem _
      (List.mem_map_of_mem ((mem_crossings_iff checked).1 crossing).2.2.1)

/-- The top is among the vertices. -/
theorem top_mem : (Region.of graph forest around).top ∈
    Vertex.root :: (blocksOf graph around).toList.map (Region.of graph forest around).vertexOf := by
  rcases isOf.top_known checked owns with several | ⟨id, inside, same⟩
  · simp [several]
  · rw [same]
    exact List.mem_cons_of_mem _ (List.mem_map_of_mem inside)

/-- The vertices of a region are ordered by a walk from its top. -/
theorem ordered_rooted : ((Region.of graph forest around).rooted graph).Ordered := by
  refine Rooted.ordered_ofRoot (isOf.closed_next checked owns) (isOf.acyclic_next checked owns) ?_
    (isOf.top_mem checked owns)
  simp [SortedSet.size]

/-- The vertices of a view are those of its blocks, and its root. -/
theorem mem_order_iff {vertex : Vertex} :
    vertex ∈ ((Region.of graph forest around).rooted graph).order ↔
      (vertex = .root ∧ (Region.of graph forest around).top = .root) ∨
        ∃ id ∈ blocksOf graph around, (Region.of graph forest around).vertexOf id = vertex := by
  have ordered := isOf.ordered_rooted checked owns
  rw [ordered.mem_iff]
  constructor
  · intro path
    have known := (isOf.closed_next checked owns).of_path path (isOf.top_mem checked owns)
    rcases List.mem_cons.1 known with root | block
    · rcases ReflTransGen.cases_tail path with same | ⟨_, -, link⟩
      · exact .inl ⟨root, same.symm.trans root⟩
      · exact absurd root (ne_root_of_link link)
    · obtain ⟨id, inside, same⟩ := List.mem_map.1 block
      exact .inr ⟨id, inside, same⟩
  · rintro (⟨rfl, several⟩ | ⟨id, inside, rfl⟩)
    · rw [← several]
      exact .refl
    · exact isOf.path_to_vertexOf checked owns inside

/-- The view of a region of a checked graph is made. -/
theorem view_ok : (Region.of graph forest around).view graph =
    .ok ⟨Region.of graph forest around, (Region.of graph forest around).rooted graph,
      (Region.of graph forest around).blockLinks graph⟩ := by
  have unreached : ((Region.of graph forest around).blocks.toList.filter fun id =>
      (Region.of graph forest around).vertexOf id ∉
        ((Region.of graph forest around).rooted graph).order) = [] := by
    rw [Region.blocks_of, List.filter_eq_nil_iff]
    intro id inside
    simpa using (isOf.mem_order_iff checked owns).2 (.inr ⟨id, inside, rfl⟩)
  have known : graph.requireBlocks (Region.of graph forest around).blocks = .ok () :=
    BlockGraph.requireBlocks_ok fun id inside =>
      isOf.blocksOf_known owns (Region.blocks_of ▸ inside)
  simp only [Region.view, known, isOf.requireEntries_ok checked owns, liftDefect, ok_bind,
    unreached, pure_eq_ok]

end LoopForest.IsOf

end Regions

end GotoFree
