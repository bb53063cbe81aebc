import GotoFree.Proofs.Assembly

/-!
# Structuring a checked graph

Every checked graph is structured (`exists_toStructured`). The loops become trees from the inside
out: the tree of a loop fits the region around it once the trees of the loops nested in it fit its
own body.
-/

namespace GotoFree

open LoopForest

/-- A way out of a block that runs the innermost loop around the block again. -/
def Recurses (graph : BlockGraph) (forest : LoopForest) (coord : Coord) : Prop :=
  ∃ loop, Continues graph forest coord loop ∧ forest.innermost? coord.block = some loop

/-- The tree of a loop in the region around it. -/
structure IsTreeOf (graph : BlockGraph) (forest : LoopForest) (around : Option Loop)
    (loop : Loop) (tree : Tree) : Prop where
  fits : Fits graph forest Bare around tree
  flat : tree.isSequence = false
  heads : tree.heads = loop.entries
  whole : ∀ id, id ∈ tree.blocks ↔ id ∈ loop.body

section Structuring

variable {graph : BlockGraph} {forest : LoopForest} {around : Option Loop}

/-- The trees of the loops in a region are all that is needed to put the region together. -/
theorem isSite_of_trees {trees : List (Nat × Tree)}
    (areTrees : ∀ loop ∈ forest.inside around, ∃ tree, trees.lookup loop.id = some tree ∧
      IsTreeOf graph forest around loop tree) :
    Site.IsOf ⟨graph, forest, ⟨Region.of graph forest around,
      (Region.of graph forest around).rooted graph,
      (Region.of graph forest around).blockLinks graph⟩, trees⟩ graph forest around :=
  ⟨rfl, rfl, rfl, fun loop member => by
    obtain ⟨tree, lookup, isTree⟩ := areTrees loop member
    exact ⟨tree, lookup, isTree.fits, isTree.flat, isTree.heads, isTree.whole⟩⟩

namespace LoopForest.IsOf

variable (checked : graph.Checked) (isOf : forest.IsOf graph) (owns : forest.Owns around)

include isOf

/-- The jumps that run a loop again are those of its body that continue it. -/
theorem mem_ownContinues_iff {loop : Loop} (known : loop ∈ forest.all) {body : Tree}
    (whole : ∀ id, id ∈ body.blocks ↔ id ∈ loop.body)
    (sums : Sums graph forest (some loop) (Leaves graph forest body.blocks) body.jumps)
    (checked : graph.Checked) {coord : Coord} : coord ∈ ownContinues forest loop body ↔
      Continues graph forest coord loop ∧ forest.innermost? coord.block = some loop := by
  have innermost : ((forest.innermost? coord.block).any fun inner => inner.id = loop.id) = true ↔
      forest.innermost? coord.block = some loop := by
    cases found : forest.innermost? coord.block with
    | none => simp
    | some inner =>
        have isInner := (isOf.innermost?_eq_some_iff.1 found).1
        simp only [Option.any_some, decide_eq_true_eq, Option.some.injEq]
        exact ⟨isOf.eq_of_id isInner known, congrArg Loop.id⟩
  simp only [ownContinues, SortedSet.mem_ofList, List.mem_map, List.mem_filter,
    SortedSet.mem_toList, Prod.exists, exists_and_right, exists_eq_right, Bool.and_eq_true,
    decide_eq_true_eq, sums.continues]
  constructor
  · rintro ⟨head, ⟨-, other, continues, -, rfl⟩, same, inner⟩
    have isOther := (mem_body_of_continues isOf continues).1
    exact ⟨isOf.eq_of_head isOther known same ▸ continues, innermost.1 inner⟩
  · rintro ⟨continues, inner⟩
    refine ⟨loop.head, ⟨⟨?_, ?_⟩, loop, continues, ?_, rfl⟩, rfl, innermost.2 inner⟩
    · exact (whole _).2 (mem_body_of_continues isOf continues).2
    · exact fun target plain => absurd continues (plain.not_continues checked)
    · intro nested
      have later := isOf.id_lt known nested
      omega

include owns

/-- The tree of a loop's body makes the tree of the loop. -/
theorem isTreeOf_loop (checked : graph.Checked) {loop : Loop}
    (nested : loop ∈ forest.inside around) {body : Tree}
    (fits : Fits graph forest Bare (some loop) body)
    (whole : ∀ id, id ∈ body.blocks ↔ id ∈ loop.body) (heads : body.heads = loop.entries) :
    IsTreeOf graph forest around loop
      (.loop ⟨loop.head, loopJumps around loop body.jumps, .none⟩ loop.entries body) := by
  have known := owns.mem_all (Loop.mem_flattenAll_of_mem nested)
  have isNested := (isOf.split_inside owns).nested loop nested
  refine ⟨.loop ⟨?_, ?_, ?_, ?_, ?_, ?_⟩ rfl nested rfl heads whole fits, rfl, rfl, ?_⟩
  · intro id here
    rw [Tree.blocks_loop, whole] at here
    exact isNested.inside id here
  · rw [Tree.blocks_loop]
    exact fits.part.distinct
  · exact isOf.head_mem known
  · intro id isHead
    rw [Tree.blocks_loop, whole]
    exact isOf.entry_mem_body known isHead
  · intro coord target edge outside here
    rw [Tree.blocks_loop, whole] at outside here
    show target ∈ loop.entries
    rw [isNested.entries_eq]
    exact checked.mem_entriesOf_of_edge edge outside here
  · rw [Tree.blocks_loop]
    exact fits.part.ways.loopJumps checked isOf owns nested whole
  · intro id
    rw [Tree.blocks_loop, whole]

omit isOf owns in
/-- The trees of several loops are made one after the other. -/
theorem exists_toTrees {loops : List Loop}
    (distinct : (loops.map Loop.id).Nodup)
    (each : ∀ loop ∈ loops, ∃ tree recursing,
      loop.toTree graph forest around = .ok (tree, recursing) ∧
      IsTreeOf graph forest around loop tree ∧
      ∀ coord, coord ∈ recursing ↔ coord.block ∈ loop.body ∧ Recurses graph forest coord) :
    ∃ trees recursing, Loop.toTrees graph forest around loops = .ok (trees, recursing) ∧
      (∀ loop ∈ loops, ∃ tree, trees.lookup loop.id = some tree ∧
        IsTreeOf graph forest around loop tree) ∧
      ∀ coord, coord ∈ recursing ↔
        (∃ loop ∈ loops, coord.block ∈ loop.body) ∧ Recurses graph forest coord := by
  induction loops with
  | nil => exact ⟨[], .empty, by simp [Loop.toTrees], by simp, by simp⟩
  | cons loop rest ih =>
      obtain ⟨fresh, distinctRest⟩ := List.nodup_cons.1 distinct
      obtain ⟨tree, own, here, isTree, ownIff⟩ := each loop (by simp)
      obtain ⟨trees, others, later, areTrees, othersIff⟩ := ih distinctRest fun other member =>
        each other (List.mem_cons_of_mem _ member)
      refine ⟨(loop.id, tree) :: trees, own.union others, ?_, ?_, fun coord => ?_⟩
      · cases loop
        simp only [Loop.toTrees, here, later, ok_bind, pure_eq_ok]
      · intro other member
        rcases List.mem_cons.1 member with rfl | member
        · exact ⟨tree, by simp, isTree⟩
        · obtain ⟨found, lookup, isFound⟩ := areTrees other member
          have differ : other.id ≠ loop.id := fun same =>
            fresh (same ▸ List.mem_map_of_mem member)
          exact ⟨found, by simp [List.lookup_cons, beq_false_of_ne differ, lookup], isFound⟩
      · rw [SortedSet.mem_union, ownIff, othersIff]
        simp only [List.mem_cons, exists_eq_or_imp]
        tauto

/-- The loops inside a region are told by their numbers. -/
theorem nodup_ids_inside : ((forest.inside around).map Loop.id).Nodup := by
  rw [List.Nodup, List.pairwise_map]
  refine (isOf.split_inside owns).apart.imp_of_mem fun {first second} left right apart same => ?_
  have isFirst := owns.mem_all (Loop.mem_flattenAll_of_mem left)
  have isSecond := owns.mem_all (Loop.mem_flattenAll_of_mem right)
  have holds := isOf.entry_mem_body isFirst (isOf.head_mem isFirst)
  exact apart _ holds (isOf.eq_of_id isFirst isSecond same ▸ holds)

omit owns in
include checked in
/-- The tree of a loop is built from its region. -/
theorem exists_toTree {loop : Loop} {around : Option Loop} (owns : forest.Owns around)
    (nested : loop ∈ forest.inside around) :
    ∃ tree recursing, loop.toTree graph forest around = .ok (tree, recursing) ∧
      IsTreeOf graph forest around loop tree ∧
      ∀ coord, coord ∈ recursing ↔ coord.block ∈ loop.body ∧ Recurses graph forest coord := by
  induction loop using Loop.induction generalizing around with
  | step loop ih =>
      have known := owns.mem_all (Loop.mem_flattenAll_of_mem nested)
      have ownsLoop := owns_some known
      obtain ⟨trees, inner, made, areTrees, innerIff⟩ := exists_toTrees
        (isOf.nodup_ids_inside ownsLoop) fun other member => ih other member ownsLoop member
      obtain ⟨body, tree, fits, whole, heads, -⟩ :=
        isOf.exists_tree checked ownsLoop (isSite_of_trees areTrees)
      refine ⟨_, inner.union (ownContinues forest loop body), ?_,
        isOf.isTreeOf_loop owns checked nested fits whole (heads loop rfl), fun coord => ?_⟩
      · have view := isOf.view_ok checked ownsLoop
        have noFlow := fits.part.ways.flow_isEmpty whole
        cases loop
        simp only [Region.of] at view tree
        simp only [inside] at made
        simp only [Loop.toTree, view, made, tree, liftDefect, ok_bind, noFlow, Bool.not_true,
          Bool.false_eq_true, if_false, pure_eq_ok]
      · rw [SortedSet.mem_union, innerIff, isOf.mem_ownContinues_iff known whole fits.part.ways
          checked]
        constructor
        · rintro (⟨⟨other, member, holds⟩, recurses⟩ | ⟨continues, innermost⟩)
          · have within := Loop.mem_flattenAll_of_mem member
            exact ⟨(isOf.nested_body known within holds).1, recurses⟩
          · exact ⟨(mem_body_of_continues isOf continues).2, loop, continues, innermost⟩
        · rintro ⟨holds, other, continues, innermost⟩
          obtain ⟨isOther, inOther, -⟩ := isOf.innermost?_eq_some_iff.1 innermost
          rcases isOf.position known isOther holds inOther with rfl | within | around
          · exact .inr ⟨continues, innermost⟩
          · obtain ⟨outer, member, within⟩ := Loop.mem_flattenAll.1 within
            refine .inl ⟨⟨outer, member, ?_⟩, other, continues, innermost⟩
            rcases Loop.mem_flatten.1 within with rfl | within
            · exact inOther
            · have isOuter := ownsLoop.mem_all (Loop.mem_flattenAll_of_mem member)
              exact (isOf.nested_body isOuter within inOther).1
          · -- The innermost loop around a block holds no other loop with that block.
            exact absurd around (not_nested_of_direct isOf (owns_some isOther)
              (isOf.innermost?_eq_some_iff.1 innermost).2.2 holds)

end LoopForest.IsOf

/-- The structured form of a graph: a tree that fits it, holds its blocks and is entered at its
entry. -/
structure Structured.IsOf (found : Structured) (graph : BlockGraph) : Prop where
  isOf : found.forest.IsOf graph
  fits : Fits graph found.forest Bare none found.root
  whole : ∀ id, id ∈ found.root.blocks ↔ id ∈ graph.ids
  entry_mem : graph.entry ∈ found.root.heads
  recursing_iff : ∀ coord, coord ∈ found.recursing ↔ Recurses graph found.forest coord

/-- Every checked graph is structured. -/
theorem BlockGraph.Checked.exists_toStructured (checked : graph.Checked) :
    ∃ found, graph.toStructured = .ok found ∧ LoopForest.ofGraph graph = .ok found.forest ∧
      found.IsOf graph := by
  obtain ⟨forest, search, loops⟩ := checked.exists_ofGraph
  have isOf : forest.IsOf graph := loops
  have owns : forest.Owns none := owns_none
  obtain ⟨trees, recursing, made, areTrees, recursingIff⟩ := IsOf.exists_toTrees
    (isOf.nodup_ids_inside owns) fun loop member => isOf.exists_toTree checked owns member
  obtain ⟨root, tree, fits, whole, -, entry⟩ :=
    isOf.exists_tree checked owns (isSite_of_trees areTrees)
  have holds (id : BlockId) : id ∈ root.blocks ↔ id ∈ graph.ids :=
    (whole id).trans BlockGraph.mem_idSet
  refine ⟨⟨root, recursing, forest⟩, ?_, search, isOf, fits, holds, entry rfl, fun coord => ?_⟩
  · have view := isOf.view_ok checked owns
    simp only [Region.of] at view tree
    simp only [inside] at made
    have placed : (graph.ids.filter fun id => id ∉ root.blocks) = [] := by
      rw [List.filter_eq_nil_iff]
      intro id known
      simpa using (holds id).2 known
    have stays := fits.part.ways.leavesLoop_none checked isOf
    simp only [BlockGraph.toStructured, search, view, made, tree, liftDefect, ok_bind, placed,
      stays, Bool.false_eq_true, if_false, pure_eq_ok]
  · rw [recursingIff]
    refine and_iff_right_of_imp ?_
    rintro ⟨loop, continues, -⟩
    obtain ⟨known, inLoop⟩ := mem_body_of_continues isOf continues
    obtain ⟨outer, member, within⟩ := Loop.mem_flattenAll.1 known
    refine ⟨outer, member, ?_⟩
    rcases Loop.mem_flatten.1 within with rfl | within
    · exact inLoop
    · exact (isOf.nested_body (Loop.mem_flattenAll_of_mem member) within inLoop).1

end Structuring

end GotoFree
