import GotoFree.Proofs.Marking
import GotoFree.Proofs.Nesting

/-!
# Proper nesting of loops

The search for loops ends by itself: a greater depth than the number of blocks changes nothing
(`findLoops_eq`). What it finds is nested properly (`LoopForest.ProperlyNested`): loops side by side
share no block, a loop lies in its parent and leaves out the parent's entries, and the climb from
the innermost loop around a block meets the loop of each region that holds the block
(`childHolding?_eq_some_iff`). The loop around the entry of a graph is entered there only, so no
alternative of a merge starts with it.
-/

namespace GotoFree

open Relation LoopForest

/-! ## The depth of the search -/

section Search

variable {graph : BlockGraph}

/-- A fold gives the same if its steps do along the list. -/
theorem foldlM_congr_mem {step other : List Loop × Nat → SortedSet BlockId →
      Except Defect (List Loop × Nat)} {bodies : List (SortedSet BlockId)}
    (same : ∀ body ∈ bodies, ∀ found, step found body = other found body)
    (found : List Loop × Nat) : bodies.foldlM step found = bodies.foldlM other found := by
  induction bodies generalizing found with
  | nil => rfl
  | cons body rest ih =>
      rw [List.foldlM_cons, List.foldlM_cons, same body (by simp)]
      exact bind_congr fun later => ih (fun body member => same body (by simp [member])) later

/-- A loop is made alike if the loops in it are found alike. -/
theorem addLoop_congr {search other : SortedSet BlockId → SortedSet BlockId → Nat →
      Except Defect (List Loop × Nat)} {body : SortedSet BlockId}
    (same : ∀ number, search body (entriesOf graph body) number =
      other body (entriesOf graph body) number) (found : List Loop × Nat) :
    addLoop graph search found body = addLoop graph other found body := by
  simp only [addLoop, same]

/-- Searches that may go deep enough find the same loops. -/
theorem findLoops_eq (checked : graph.Checked) {depth other : Nat}
    {region cut : SortedSet BlockId} (known : ∀ id ∈ region, id ∈ graph.ids)
    (entered : EnteredFromOutside graph region cut)
    (enough : (region.toList.filter fun id => id ∉ cut).length < depth)
    (enoughOther : (region.toList.filter fun id => id ∉ cut).length < other) (number : Nat) :
    findLoops graph depth region cut number = findLoops graph other region cut number := by
  induction depth generalizing region cut other number with
  | zero => omega
  | succ depth ih =>
      cases other with
      | zero => omega
      | succ other =>
          obtain ⟨areParts, -, -⟩ := @cyclicParts_spec graph region cut _ rfl
          unfold findLoops
          rw [BlockGraph.requireBlocks_ok known, ok_bind, ok_bind]
          refine foldlM_congr_mem (fun body member found =>
            addLoop_congr (fun number => ?_) found) _
          obtain ⟨part, among, rfl⟩ := List.mem_map.1 member
          have isPart := areParts part among
          -- The entries of the loop are left out one level deeper.
          obtain ⟨entry, isEntry⟩ := exists_entry_bodyOf checked isPart known
          have smaller := length_inner_lt checked isPart entered isEntry
          exact ih (fun id holds => known id (inside_bodyOf checked isPart holds))
            checked.enteredFromOutside_entriesOf (by omega) (by omega) number

/-- Every search in a whole graph that may go deeper than the graph has blocks finds its loops. -/
theorem BlockGraph.Checked.findLoops_eq_ok (checked : graph.Checked) {forest : LoopForest}
    (found : LoopForest.ofGraph graph = .ok forest) {depth : Nat}
    (enough : graph.ids.length < depth) :
    findLoops graph depth graph.idSet .empty 0 = .ok (forest.top, forest.all.length) := by
  have known : ∀ id ∈ graph.idSet, id ∈ graph.ids := fun id => BlockGraph.mem_idSet.1
  have entered : EnteredFromOutside graph graph.idSet .empty :=
    fun id member => absurd member SortedSet.not_mem_empty
  have few : (graph.idSet.toList.filter fun id => id ∉ (.empty : SortedSet BlockId)).length ≤
      graph.ids.length :=
    Nat.le_trans (List.length_filter_le _ _)
      (List.subperm_of_subset graph.idSet.nodup known).length_le
  obtain ⟨loops, search, -⟩ := @exists_findLoops graph checked (graph.ids.length + 1)
    graph.idSet .empty 0 known entered (Nat.lt_succ_of_le few)
  have same : (⟨loops⟩ : LoopForest) = forest := by
    simpa [LoopForest.ofGraph, search] using found
  rw [findLoops_eq checked known entered (Nat.lt_of_le_of_lt few enough) (Nat.lt_succ_of_le few),
    search, ← same, Nat.zero_add]
  rfl

end Search

/-! ## Parents -/

/-- A loop in another one is directly nested in it or in a loop in it. -/
theorem Loop.exists_mem_inner {outer loop : Loop} (nested : loop ∈ flattenAll outer.inner) :
    ∃ parent ∈ outer.flatten, loop ∈ parent.inner := by
  induction outer using Loop.induction with
  | step outer ih =>
      obtain ⟨inner, among, within⟩ := mem_flattenAll.1 nested
      rcases mem_flatten.1 within with rfl | within
      · exact ⟨outer, outer.mem_flatten_self, among⟩
      · obtain ⟨parent, below, direct⟩ := ih inner among within
        exact ⟨parent, mem_flatten.2 (.inr (mem_flattenAll.2 ⟨inner, among, below⟩)), direct⟩

namespace LoopForest.IsOf

variable {graph : BlockGraph} {forest : LoopForest} (isOf : forest.IsOf graph)

include isOf

/-- Each loop is directly nested in one region, that of its parent. -/
theorem mem_inside_iff {region : Option Loop} (owns : forest.Owns region) {loop : Loop} :
    loop ∈ forest.inside region ↔ loop ∈ forest.all ∧ forest.parent? loop = region := by
  refine ⟨fun nested => ⟨owns.mem_all (Loop.mem_flattenAll_of_mem nested),
    isOf.parent?_eq owns nested⟩, fun ⟨known, isParent⟩ => ?_⟩
  obtain ⟨outer, among, within⟩ := Loop.mem_flattenAll.1 known
  rcases Loop.mem_flatten.1 within with rfl | nested
  · rwa [← isParent, isOf.parent?_eq_none among]
  · obtain ⟨parent, below, direct⟩ := Loop.exists_mem_inner nested
    have isLoop : parent ∈ forest.all := Loop.mem_flattenAll.2 ⟨outer, among, below⟩
    rwa [← isParent, (isOf.parent?_eq_some_iff known).2 ⟨isLoop, direct⟩]

/-- The loop around a loop is one of the forest. -/
theorem owns_parent? {loop : Loop} (known : loop ∈ forest.all) :
    forest.Owns (forest.parent? loop) := fun _ isParent =>
  ((isOf.parent?_eq_some_iff known).1 isParent).1

/-- A loop lies in another one if its parent is that one or lies in it. -/
theorem mem_flattenAll_inner_iff {outer loop : Loop} (known : outer ∈ forest.all)
    (isLoop : loop ∈ forest.all) : loop ∈ Loop.flattenAll outer.inner ↔
      ∃ parent, forest.parent? loop = some parent ∧
        (parent = outer ∨ parent ∈ Loop.flattenAll outer.inner) := by
  constructor
  · intro nested
    obtain ⟨parent, below, direct⟩ := Loop.exists_mem_inner nested
    refine ⟨parent, (isOf.parent?_eq_some_iff isLoop).2 ⟨?_, direct⟩, Loop.mem_flatten.1 below⟩
    exact (Loop.flatten_sublist_flattenAll known).subset below
  · rintro ⟨parent, isParent, place⟩
    have direct := Loop.mem_flattenAll_of_mem ((isOf.parent?_eq_some_iff isLoop).1 isParent).2
    rcases place with rfl | within
    · exact direct
    · obtain ⟨inner, among, below⟩ := Loop.mem_flattenAll.1 within
      exact Loop.mem_flattenAll.2 ⟨inner, among,
        (Loop.flatten_sublist below).subset (Loop.mem_flatten.2 (.inr direct))⟩

/-! ## Climbing -/

/-- Numbers tell regions apart. -/
theorem map_id_eq_iff {first second : Option Loop} (left : forest.Owns first)
    (right : forest.Owns second) : first.map Loop.id = second.map Loop.id ↔ first = second := by
  refine ⟨fun same => ?_, congrArg _⟩
  cases first with
  | none => cases second <;> simp_all
  | some one =>
      cases second with
      | none => simp at same
      | some two => rw [isOf.eq_of_id (left one rfl) (right two rfl) (Option.some.inj same)]

/-- A climb meets the loop that holds its start in the region it climbs to. -/
theorem climb_eq_some_iff {region : Option Loop} (owns : forest.Owns region) {steps : Nat}
    {loop child : Loop} (known : loop ∈ forest.all) (enough : loop.id < steps) :
    forest.climb region steps loop = some child ↔ child ∈ forest.all ∧
      forest.parent? child = region ∧ (loop = child ∨ loop ∈ Loop.flattenAll child.inner) := by
  induction steps generalizing loop with
  | zero => omega
  | succ steps ih =>
      have arrives := isOf.map_id_eq_iff (isOf.owns_parent? known) owns
      simp only [climb]
      split
      · next arrived =>
        rw [arrives] at arrived
        constructor
        · rintro ⟨⟩
          exact ⟨known, arrived, .inl rfl⟩
        · rintro ⟨isChild, isParent, rfl | nested⟩
          · rfl
          · -- Both would be directly nested in the region, one of them in the other.
            have direct := (isOf.mem_inside_iff owns).2 ⟨known, arrived⟩
            have among := (isOf.mem_inside_iff owns).2 ⟨isChild, isParent⟩
            exact absurd nested
              (isOf.not_nested_of_inside owns direct (Loop.mem_flattenAll_of_mem among))
      · next further =>
        rw [arrives] at further
        have deeper (isParent : forest.parent? child = region) (isChild : child ∈ forest.all) :
            (loop = child ∨ loop ∈ Loop.flattenAll child.inner) ↔
              ∃ parent, forest.parent? loop = some parent ∧
                (parent = child ∨ parent ∈ Loop.flattenAll child.inner) := by
          rw [← isOf.mem_flattenAll_inner_iff isChild known]
          exact or_iff_right fun same => further (same ▸ isParent)
        cases outer : forest.parent? loop with
        | none =>
            simp only [Option.bind_none, reduceCtorEq, false_iff]
            rintro ⟨isChild, isParent, place⟩
            obtain ⟨parent, isSome, -⟩ := (deeper isParent isChild).1 place
            cases outer.symm.trans isSome
        | some parent =>
            obtain ⟨isOuter, direct⟩ := (isOf.parent?_eq_some_iff known).1 outer
            have before := isOf.id_lt isOuter (Loop.mem_flattenAll_of_mem direct)
            rw [Option.bind_some, ih isOuter (by omega)]
            refine and_congr_right fun isChild => and_congr_right fun isParent => ?_
            rw [deeper isParent isChild, outer]
            simp

/-- The loop of a region that holds a block is the one the climb from the block meets. -/
theorem childHolding?_eq_some_iff {region : Option Loop} (owns : forest.Owns region)
    {id : BlockId} {loop : Loop} : forest.childHolding? region id = some loop ↔
      loop ∈ forest.all ∧ forest.parent? loop = region ∧ id ∈ loop.body := by
  rw [childHolding?, Option.bind_eq_some_iff]
  constructor
  · rintro ⟨inner, innermost, climbed⟩
    obtain ⟨isInner, holds, -⟩ := isOf.innermost?_eq_some_iff.1 innermost
    obtain ⟨known, isParent, place⟩ :=
      (isOf.climb_eq_some_iff owns isInner (Nat.lt_succ_self _)).1 climbed
    refine ⟨known, isParent, ?_⟩
    rcases place with rfl | nested
    · exact holds
    · exact (isOf.nested_body known nested holds).1
  · rintro ⟨known, isParent, holds⟩
    obtain ⟨inner, innermost, place⟩ := exists_innermost isOf known holds
    have isInner := (isOf.innermost?_eq_some_iff.1 innermost).1
    refine ⟨inner, innermost, ?_⟩
    exact (isOf.climb_eq_some_iff owns isInner (Nat.lt_succ_self _)).2 ⟨known, isParent, place⟩

/-! ## The loop around the entry -/

variable (checked : graph.Checked)

include checked

/-- A loop that lies in no other and holds the entry of the graph is entered there only: control
that has left it cannot come back. -/
theorem eq_entry_of_top {loop : Loop} (top : loop ∈ forest.top) (holds : graph.entry ∈ loop.body)
    {id : BlockId} (isEntry : id ∈ loop.entries) : id = graph.entry := by
  have nested : NestedIn graph graph.idSet .empty loop := isOf.split.nested loop top
  have known : loop ∈ forest.all := Loop.mem_flattenAll_of_mem top
  obtain ⟨inside, same | ⟨coord, edge, outside⟩⟩ :=
    checked.mem_entriesOf.1 (isOf.entries_eq known ▸ isEntry)
  · exact same
  · -- The source of the edge is reached from the entry and leads back to it, so it is in the loop.
    have edges {one two : BlockId} (step : two ∈ graph.next one) :
        graph.Inner graph.idSet .empty one two := by
      obtain ⟨way, rfl, leads⟩ := checked.mem_next_iff.1 step
      exact ⟨BlockGraph.mem_idSet.2 (BlockGraph.Checked.source_mem leads),
        BlockGraph.mem_idSet.2 (checked.edge_target_mem leads), SortedSet.not_mem_empty, step⟩
    have path : ReflTransGen (graph.Inner graph.idSet .empty) graph.entry coord.block :=
      ReflTransGen.mono (fun _ _ => edges) _ _
        (checked.reached (BlockGraph.Checked.source_mem edge))
    rcases ReflTransGen.cases_head path with same | ⟨next, first, rest⟩
    · exact absurd (same ▸ holds) outside
    · have there : TransGen (graph.Inner graph.idSet .empty) graph.entry coord.block :=
        .head' first rest
      have closing := nested.connected id isEntry graph.entry holds next first.2.2.2
      have back := TransGen.head (edges (checked.mem_next_iff.2 ⟨coord, rfl, edge⟩)) closing.there
      obtain ⟨other, among, here, source⟩ := isOf.split.whole _ _ ⟨there, back⟩
      exact absurd (isOf.split.eq_of_mem among top here holds ▸ source) outside

/-- A loop that holds the entry of the graph is entered there and nowhere else. -/
theorem mem_entries_iff_of_entry {loop : Loop} (known : loop ∈ forest.all)
    (holds : graph.entry ∈ loop.body) {id : BlockId} :
    id ∈ loop.entries ↔ id = graph.entry := by
  have isEntry : graph.entry ∈ loop.entries := by
    rw [isOf.entries_eq known]
    exact checked.mem_entriesOf.2 ⟨holds, .inl rfl⟩
  refine ⟨fun member => ?_, fun same => same ▸ isEntry⟩
  obtain ⟨outer, top, within⟩ := Loop.mem_flattenAll.1 known
  rcases Loop.mem_flatten.1 within with rfl | nested
  · exact isOf.eq_entry_of_top checked top holds member
  · -- An outer loop has the entry of the graph among its own, and no loop in it holds those.
    have isOuter : outer ∈ forest.all := Loop.mem_flattenAll_of_mem top
    obtain ⟨inOuter, notEntry⟩ := isOf.nested_body isOuter nested holds
    refine absurd ?_ notEntry
    rw [isOf.entries_eq isOuter]
    exact checked.mem_entriesOf.2 ⟨inOuter, .inl rfl⟩

end LoopForest.IsOf

/-! ## Proper nesting -/

/-- The loops of a graph lie in each other as brackets do, and control enters each from outside. -/
structure LoopForest.ProperlyNested (forest : LoopForest) (graph : BlockGraph) : Prop where
  /-- Different loops with the same parent share no block. -/
  siblings_apart : ∀ one ∈ forest.all, ∀ two ∈ forest.all,
    forest.parent? one = forest.parent? two → ∀ id ∈ one.body, id ∈ two.body → one = two
  /-- A loop lies in its parent, which has more blocks. -/
  inside_parent : ∀ loop ∈ forest.all, ∀ outer, forest.parent? loop = some outer →
    (∀ id ∈ loop.body, id ∈ outer.body) ∧ ∃ id ∈ outer.body, id ∉ loop.body
  entries_iff : ∀ loop ∈ forest.all, ∀ id, id ∈ loop.entries ↔ id ∈ loop.body ∧
    (id = graph.entry ∨ ∃ source, id ∈ graph.next source ∧ source ∉ loop.body)
  /-- Every loop has an entry; the least one is its head. -/
  head_eq : ∀ loop ∈ forest.all, loop.entries.min? = some loop.head
  /-- No loop nested in a loop, at any depth, holds an entry of it. -/
  entries_free : ∀ loop ∈ forest.all, ∀ inner ∈ Loop.flattenAll loop.inner,
    ∀ id ∈ loop.entries, id ∉ inner.body
  eq_of_entry : ∀ one ∈ forest.all, ∀ two ∈ forest.all,
    ∀ id ∈ one.entries, id ∈ two.entries → one = two
  heads_distinct : (forest.all.map Loop.head).Nodup
  /-- A loop around the entry of the graph has no other entry. -/
  entered_at_entry : ∀ loop ∈ forest.all, graph.entry ∈ loop.body →
    ∀ id, id ∈ loop.entries ↔ id = graph.entry
  child_iff : ∀ region, forest.Owns region → ∀ id loop,
    forest.childHolding? region id = some loop ↔
      loop ∈ forest.all ∧ forest.parent? loop = region ∧ id ∈ loop.body

/-- The loops of a forest are properly nested. -/
theorem LoopForest.IsOf.properlyNested {graph : BlockGraph} {forest : LoopForest}
    (isOf : forest.IsOf graph) (checked : graph.Checked) : forest.ProperlyNested graph where
  siblings_apart one left two right same id here there := by
    have owns := isOf.owns_parent? left
    exact (isOf.split_inside owns).eq_of_mem ((isOf.mem_inside_iff owns).2 ⟨left, rfl⟩)
      ((isOf.mem_inside_iff owns).2 ⟨right, same.symm⟩) here there
  inside_parent loop known outer isParent := by
    obtain ⟨isOuter, direct⟩ := (isOf.parent?_eq_some_iff known).1 isParent
    have nested := Loop.mem_flattenAll_of_mem direct
    have isHead := isOf.head_mem isOuter
    exact ⟨fun id holds => (isOf.nested_body isOuter nested holds).1, outer.head,
      isOf.entry_mem_body isOuter isHead,
      fun holds => (isOf.nested_body isOuter nested holds).2 isHead⟩
  entries_iff loop known id := by
    have sources : (∃ coord, graph.HasEdge coord id ∧ coord.block ∉ loop.body) ↔
        ∃ source, id ∈ graph.next source ∧ source ∉ loop.body := by
      simp only [checked.mem_next_iff]
      constructor
      · rintro ⟨coord, edge, outside⟩
        exact ⟨coord.block, ⟨coord, rfl, edge⟩, outside⟩
      · rintro ⟨_, ⟨coord, rfl, edge⟩, outside⟩
        exact ⟨coord, edge, outside⟩
    rw [isOf.entries_eq known, checked.mem_entriesOf, sources]
  head_eq loop known := by
    obtain ⟨region, cut, nested⟩ := isOf.exists_nested known
    exact nested.head_eq
  entries_free loop known inner nested id isEntry holds :=
    (isOf.nested_body known nested holds).2 isEntry
  eq_of_entry one left two right id := isOf.eq_of_entry left right
  heads_distinct := by
    rw [List.Nodup, List.pairwise_map]
    refine isOf.ids_increasing.imp_of_mem fun {one two} left right before same => ?_
    exact Nat.ne_of_lt before (congrArg Loop.id (isOf.eq_of_head left right same))
  entered_at_entry loop known holds id := isOf.mem_entries_iff_of_entry checked known holds
  child_iff region owns id loop := isOf.childHolding?_eq_some_iff owns

/-- No alternative of a merge starts with the entry of the graph. -/
theorem Fits.ne_entry_of_merge {graph : BlockGraph} {forest : LoopForest}
    {NotedAs : Option Loop → Tree → Prop} {around : Option Loop} {label : Label}
    {alternatives : List Tree} {incoming : Incoming} (checked : graph.Checked)
    (isOf : forest.IsOf graph) (owns : forest.Owns around)
    (fits : Fits graph forest NotedAs around (.merge label alternatives incoming)) :
    ∀ tree ∈ alternatives, tree.head ≠ graph.entry ∧ graph.entry ∉ tree.heads := by
  obtain - | - | - | - | ⟨part, noted, heads, several, isEntry, incoming_iff, leaves, fits⟩ := fits
  have notHead : graph.entry ∉ Tree.headsOfAll alternatives := by
    intro member
    obtain ⟨other, isOther, differ⟩ := several _ member
    cases around with
    | none => exact SortedSet.not_mem_empty (isEntry _ member)
    | some loop =>
        have known := owns loop rfl
        have holds := isOf.entry_mem_body known (isEntry _ member)
        exact differ ((isOf.mem_entries_iff_of_entry checked known holds).1 (isEntry _ isOther))
  intro tree member
  have notHere : graph.entry ∉ tree.heads := fun here =>
    notHead (Tree.mem_headsOfAll.2 ⟨tree, member, here⟩)
  exact ⟨fun same => notHere (same ▸ (fits tree member).part.head_mem), notHere⟩

/-- The loops of every graph built from a list of blocks are found however deep the search may go
beyond the number of blocks, they are nested properly, and no merge of the structured graph has an
alternative that starts with the entry. -/
theorem BlockGraph.exists_properlyNested {entry : BlockId} {blocks : List Block}
    {graph : BlockGraph} (built : BlockGraph.ofBlocks entry blocks = .ok graph) :
    ∃ found, graph.toStructured = .ok found ∧ LoopForest.ofGraph graph = .ok found.forest ∧
      (∀ depth, graph.ids.length < depth → findLoops graph depth graph.idSet .empty 0 =
        .ok (found.forest.top, found.forest.all.length)) ∧
      found.forest.ProperlyNested graph ∧
      ∀ label alternatives incoming, .merge label alternatives incoming ∈ found.root.nodes →
        ∀ tree ∈ alternatives, tree.head ≠ graph.entry ∧ graph.entry ∉ tree.heads := by
  have checked := checked_ofBlocks built
  obtain ⟨found, made, search, isFound⟩ := checked.exists_toStructured
  refine ⟨found, made, search, fun depth enough => checked.findLoops_eq_ok search enough,
    isFound.isOf.properlyNested checked, fun label alternatives incoming member => ?_⟩
  obtain ⟨region, owns, fits⟩ := isFound.fits.of_mem_nodes owns_none member
  exact fits.ne_entry_of_merge checked isFound.isOf owns

/-- A loop that may be entered at two blocks, one of which may run itself again. -/
def twiceEnteredBlocks : List Block :=
  [⟨⟨0⟩, [.branch .nondet], [⟨1⟩, ⟨2⟩]⟩, ⟨⟨1⟩, [], [⟨3⟩]⟩, ⟨⟨2⟩, [.branch .nondet], [⟨1⟩, ⟨4⟩]⟩,
    ⟨⟨3⟩, [.branch .nondet], [⟨3⟩, ⟨2⟩]⟩, ⟨⟨4⟩, [.ret none], []⟩]

/-- A cycle that is entered twice is a loop with two entries. -/
theorem BlockGraph.exists_properlyNested_twiceEntered : ∃ graph found outer inner,
    BlockGraph.ofBlocks ⟨0⟩ twiceEnteredBlocks = .ok graph ∧ graph.toStructured = .ok found ∧
      found.forest.ProperlyNested graph ∧ found.forest.all = [outer, inner] ∧
      outer.entries.toList = [⟨1⟩, ⟨2⟩] ∧ inner.body.toList = [⟨3⟩] ∧
      found.forest.childHolding? (some outer) ⟨3⟩ = some inner := by
  have built : BlockGraph.ofBlocks ⟨0⟩ twiceEnteredBlocks = .ok _ := rfl
  obtain ⟨found, made, search, -, proper, -⟩ := BlockGraph.exists_properlyNested built
  have shapes : (BlockGraph.ofBlocks ⟨0⟩ twiceEnteredBlocks).toOption.bind (fun graph =>
      (LoopForest.ofGraph graph).toOption.map fun forest => forest.all.map fun loop =>
        ((forest.parent? loop).map Loop.id, loop.id, loop.entries.toList, loop.body.toList)) =
      some [(none, 0, [⟨1⟩, ⟨2⟩], [⟨1⟩, ⟨2⟩, ⟨3⟩, ⟨4⟩]), (some 0, 1, [⟨3⟩], [⟨3⟩])] := by
    decide
  rw [built, Except.toOption, Option.bind_some, search, Except.toOption, Option.map_some,
    Option.some.injEq] at shapes
  generalize all : found.forest.all = loops at shapes
  obtain - | ⟨outer, - | ⟨inner, - | _⟩⟩ := loops <;> simp at shapes
  obtain ⟨⟨-, first, entries, -⟩, ⟨parent, isParent, number⟩, second, -, body⟩ := shapes
  have isOuter : parent = outer := by
    have among : parent ∈ found.forest.all := List.mem_of_find?_eq_some isParent
    rw [all] at among
    rcases List.mem_pair.1 among with rfl | rfl
    · rfl
    · omega
  have owns : found.forest.Owns (some outer) := by
    rintro _ ⟨⟩
    simp [all]
  refine ⟨_, found, outer, inner, built, made, proper, all, entries, body, ?_⟩
  refine (proper.child_iff _ owns _ _).2 ⟨by simp [all], isOuter ▸ isParent, ?_⟩
  rw [← SortedSet.mem_toList, body]
  simp

end GotoFree
