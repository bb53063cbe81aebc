import GotoFree.Proofs.ProperLoops

/-!
# The edges that close cycles

The edges that continue a loop are those that close a cycle (`LoopForest.CutsCycles`). Without them
no path of a graph comes back to its start: a cycle in a region lies in one of the loops there
(`exists_inside_of_cycle`), and as it continues none it avoids the entries of that loop, so it goes
on in a loop nested further in. In turn each of them lies on a cycle of the loop that it continues.
So the regions are structured on graphs without cycles.
-/

namespace GotoFree

open Relation LoopForest

/-- A path also goes along the edges of another graph that has the edges met on the way. -/
theorem transGen_of_between {α : Type} {edge other : α → α → Prop} {start finish : α}
    (path : TransGen edge start finish)
    (kept : ∀ source target, ReflTransGen edge start source → edge source target →
      ReflTransGen edge target finish → other source target) : TransGen other start finish := by
  induction path with
  | single step => exact .single (kept _ _ .refl step .refl)
  | tail path step ih =>
      have before := ih fun source target front met back =>
        kept source target front met (back.tail step)
      exact before.tail (kept _ _ path.to_reflTransGen step .refl)

/-- The blocks that the edges of a block that continue no loop lead to. -/
def LoopForest.plainNext (forest : LoopForest) (graph : BlockGraph) (id : BlockId) :
    List BlockId :=
  (graph.next id).filter fun target => (forest.continued? id target).isNone

namespace LoopForest.IsOf

variable {graph : BlockGraph} {forest : LoopForest} (isOf : forest.IsOf graph)
  {around : Option Loop} (owns : forest.Owns around)

include isOf owns

/-- A cycle of a region through a block of a loop directly nested there stays in the loop. -/
theorem mem_body_of_mutual {loop : Loop} (nested : loop ∈ forest.inside around)
    {first second : BlockId} (holds : first ∈ loop.body)
    (both : graph.Mutual (blocksOf graph around) (cutOf around) first second) :
    second ∈ loop.body := by
  obtain ⟨other, among, here, there⟩ := (isOf.split_inside owns).whole _ _ both
  exact (isOf.split_inside owns).eq_of_mem among nested here holds ▸ there

/-! ## No cycle is left -/

/-- An edge between blocks of a region that leads to none of its entries and continues no loop. -/
def PlainWithin (graph : BlockGraph) (forest : LoopForest) (around : Option Loop)
    (source target : BlockId) : Prop :=
  graph.Inner (blocksOf graph around) (cutOf around) source target ∧
    forest.continued? source target = none

/-- A cycle that continues no loop lies in a loop directly nested in its region, off the entries. -/
theorem exists_inside_of_cycle {id : BlockId}
    (cycle : TransGen (PlainWithin graph forest around) id id) :
    ∃ loop ∈ forest.inside around, TransGen (PlainWithin graph forest (some loop)) id id := by
  have edges {source target : BlockId}
      (path : TransGen (PlainWithin graph forest around) source target) :
      TransGen (graph.Inner (blocksOf graph around) (cutOf around)) source target :=
    TransGen.mono (fun _ _ edge => edge.1) _ _ path
  obtain ⟨loop, nested, holds, -⟩ := (isOf.split_inside owns).whole _ _ ⟨edges cycle, edges cycle⟩
  have known := owns.mem_all (Loop.mem_flattenAll_of_mem nested)
  refine ⟨loop, nested, transGen_of_between cycle fun source target front step back => ?_⟩
  have fromBody := isOf.mem_body_of_mutual owns nested holds
    ⟨edges (cycle.trans_left front), edges (.head' step back)⟩
  have toBody := isOf.mem_body_of_mutual owns nested holds
    ⟨edges (.tail' front step), edges (.trans_right back cycle)⟩
  have notEntry : target ∉ loop.entries := fun isEntry =>
    isOf.continued?_eq_none_iff.1 step.2 loop known isEntry fromBody
  exact ⟨⟨fromBody, toBody, notEntry, step.1.2.2.2⟩, step.2⟩

omit owns in
/-- The loops nested in a loop leave no room for a cycle that continues none. -/
theorem not_cycle_within {loop : Loop} (known : loop ∈ forest.all) (id : BlockId) :
    ¬ TransGen (PlainWithin graph forest (some loop)) id id := by
  induction loop using Loop.induction with
  | step loop ih =>
      intro cycle
      obtain ⟨inner, nested, deeper⟩ := isOf.exists_inside_of_cycle (owns_some known) cycle
      exact ih inner nested
        (Loop.mem_flattenAll_of_inner known (Loop.mem_flattenAll_of_mem nested)) deeper

omit owns in
theorem acyclic_plainNext (checked : graph.Checked) : Acyclic (forest.plainNext graph) := by
  intro id cycle
  have plain : TransGen (PlainWithin graph forest none) id id := by
    refine TransGen.mono (fun source target edge => ?_) _ _ cycle
    obtain ⟨step, isPlain⟩ := List.mem_filter.1 edge
    obtain ⟨way, rfl, leads⟩ := checked.mem_next_iff.1 step
    exact ⟨⟨BlockGraph.mem_idSet.2 (BlockGraph.Checked.source_mem leads),
      BlockGraph.mem_idSet.2 (checked.edge_target_mem leads), SortedSet.not_mem_empty, step⟩,
      Option.isNone_iff_eq_none.1 isPlain⟩
  obtain ⟨loop, top, deeper⟩ := isOf.exists_inside_of_cycle owns_none plain
  exact isOf.not_cycle_within (Loop.mem_flattenAll_of_mem top) id deeper

/-! ## Each edge cut closes a cycle -/

omit owns in
/-- From the target of an edge that continues a loop a path in the loop leads back to its source. -/
theorem path_of_continued {source target : BlockId} {loop : Loop}
    (edge : target ∈ graph.next source) (continues : forest.continued? source target = some loop) :
    graph.Inner loop.body .empty source target ∧
      ReflTransGen (graph.Inner loop.body .empty) target source := by
  obtain ⟨known, isEntry, holds⟩ := isOf.continued?_eq_some_iff.1 continues
  have owns := isOf.owns_parent? known
  have nested := (isOf.mem_inside_iff owns).2 ⟨known, rfl⟩
  have entered := isOf.entry_mem_body known isEntry
  have both := ((isOf.split_inside owns).nested loop nested).connected target isEntry source holds
    target edge
  refine ⟨⟨holds, entered, SortedSet.not_mem_empty, edge⟩, ?_⟩
  -- Every block on the way lies on the cycle that the two blocks lie on.
  have path : TransGen (graph.Inner loop.body .empty) target source :=
    transGen_of_between both.there fun first second front step back => by
      have close := (TransGen.head' step back).trans both.back
      have here := isOf.mem_body_of_mutual owns nested entered
        ⟨(both.there.trans both.back).trans_left front, close⟩
      have there := isOf.mem_body_of_mutual owns nested entered
        ⟨.tail' front step, .trans_right back both.back⟩
      exact ⟨here, there, SortedSet.not_mem_empty, step.2.2.2⟩
  exact path.to_reflTransGen

/-! ## The regions -/

end LoopForest.IsOf

/-- The edges that continue a loop close the cycles of a graph, and the regions of the graph are
structured without them. -/
structure LoopForest.CutsCycles (forest : LoopForest) (graph : BlockGraph) : Prop where
  acyclic : Acyclic (forest.plainNext graph)
  /-- An edge that continues a loop lies on a cycle in the body of the loop. -/
  closes : ∀ source target loop, target ∈ graph.next source →
    forest.continued? source target = some loop →
      graph.Inner loop.body .empty source target ∧
        ReflTransGen (graph.Inner loop.body .empty) target source
  /-- The view of a region has no cycle, and its root leads to each of its vertices. -/
  view_rooted : ∀ around, forest.Owns around → ∃ view,
    (Region.of graph forest around).view graph = .ok view ∧
      view.region = Region.of graph forest around ∧ Acyclic view.rooted.next ∧
      ∀ id ∈ view.region.blocks,
        ReflTransGen (Leads view.rooted.next) view.rooted.root (view.region.vertexOf id)

theorem LoopForest.IsOf.cutsCycles {graph : BlockGraph} {forest : LoopForest}
    (isOf : forest.IsOf graph) (checked : graph.Checked) : forest.CutsCycles graph where
  acyclic := isOf.acyclic_plainNext checked
  closes _ _ _ edge continues := isOf.path_of_continued edge continues
  view_rooted around owns := by
    refine ⟨_, isOf.view_ok checked owns, rfl, isOf.acyclic_next checked owns, fun id member => ?_⟩
    exact isOf.path_to_vertexOf checked owns (Region.blocks_of ▸ member)

/-- In every graph built from a list of blocks the edges that continue a loop are those that close
a cycle, and each region is structured on a graph without cycles that its root reaches whole. -/
theorem BlockGraph.exists_cutsCycles {entry : BlockId} {blocks : List Block} {graph : BlockGraph}
    (built : BlockGraph.ofBlocks entry blocks = .ok graph) :
    ∃ forest, LoopForest.ofGraph graph = .ok forest ∧ forest.CutsCycles graph := by
  have checked := checked_ofBlocks built
  obtain ⟨forest, search, isOf⟩ := checked.exists_ofGraph
  exact ⟨forest, search, LoopForest.IsOf.cutsCycles isOf checked⟩

theorem BlockGraph.exists_cutsCycles_twiceEntered : ∃ graph forest,
    BlockGraph.ofBlocks ⟨0⟩ twiceEnteredBlocks = .ok graph ∧
      LoopForest.ofGraph graph = .ok forest ∧ forest.CutsCycles graph ∧
      forest.plainNext graph ⟨2⟩ = [⟨4⟩] ∧ forest.plainNext graph ⟨3⟩ = [] := by
  have built : BlockGraph.ofBlocks ⟨0⟩ twiceEnteredBlocks = .ok _ := rfl
  obtain ⟨forest, search, cuts⟩ := BlockGraph.exists_cutsCycles built
  have plain : (BlockGraph.ofBlocks ⟨0⟩ twiceEnteredBlocks).toOption.bind (fun graph =>
      (LoopForest.ofGraph graph).toOption.map fun forest =>
        (forest.plainNext graph ⟨2⟩, forest.plainNext graph ⟨3⟩)) = some ([⟨4⟩], []) := by
    decide
  rw [built, Except.toOption, Option.bind_some, search, Except.toOption, Option.map_some,
    Option.some.injEq, Prod.mk.injEq] at plain
  exact ⟨_, forest, built, search, cuts, plain⟩

end GotoFree
