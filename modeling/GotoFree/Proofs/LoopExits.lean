import GotoFree.Proofs.Simulation
import GotoFree.Proofs.WaysOut

/-!
# The exits of a loop

A loop is left in three ways: into an entry of the loop around it, which is then run again; by a
return or past the loop around it, which then has to be left too; or to a block of the loop around
it, where control just goes on. The notes of a loop node list the first two and its record has the
third as flow, each way out in one place (`Tree.SortsExits`,
`BlockGraph.exists_marked_exits`).
-/

namespace GotoFree

open LoopForest

/-- A way out of a block that continues a loop around another one. -/
def ContinuesAround (graph : BlockGraph) (forest : LoopForest) (loop : Loop) (coord : Coord) :
    Prop :=
  ∃ other, Continues graph forest coord other ∧ loop ∈ Loop.flattenAll other.inner

/-- A loop node says where control goes along each way out of the loop's body, given the loop around
it: `recurseOn` has the edges to the entries of that one, `returnOn` the returns and the edges past
that one, and the flow of the node's record the rest. -/
structure Tree.SortsExits (graph : BlockGraph) (forest : LoopForest) (loop : Loop)
    (recurseOn returnOn : CoordSet) (node : Tree) : Prop where
  recurseOn_eq : node.notes.recurseOn = some recurseOn
  returnOn_eq : node.notes.returnOn = some returnOn
  recurses : ∀ coord, coord ∈ recurseOn ↔ coord.block ∈ loop.body ∧
    ∃ outer target, forest.parent? loop = some outer ∧ graph.HasEdge coord target ∧
      target ∈ outer.entries
  leaves : ∀ coord, coord ∈ returnOn ↔ coord.block ∈ loop.body ∧
    (graph.IsReturn coord ∨
      (∃ outer, forest.parent? loop = some outer ∧ ContinuesAround graph forest outer coord) ∨
      ∃ outer target, forest.parent? loop = some outer ∧ graph.HasEdge coord target ∧
        target ∉ outer.body ∧ ¬ ContinuesAround graph forest outer coord)
  /-- The other edges that leave the body flow to where their targets stand. -/
  flow : ∀ coord target, (coord, target) ∈ node.jumps.flow ↔
    coord.block ∈ loop.body ∧ graph.HasEdge coord target ∧ target ∉ loop.body ∧
      coord ∉ recurseOn ∧ coord ∉ returnOn
  apart : [recurseOn, returnOn, node.jumps.flowCoords].Pairwise fun one two =>
    ∀ coord ∈ one, coord ∉ two
  value : ∃ returns, node.notes.valueLoop = some returns ∧
    (returns = true ↔ ∃ id ∈ loop.body, graph.isReturning id = true)

section LoopExits

variable {graph : BlockGraph} {forest : LoopForest} {around : Option Loop} {loop : Loop}
  {coord : Coord} {target : BlockId} {jumps : Jumps}

/-- A block of a loop lies in the region that the loop is directly nested in. -/
theorem LoopForest.IsOf.inside_of_nested (isOf : forest.IsOf graph) (owns : forest.Owns around)
    (nested : loop ∈ forest.inside around) {id : BlockId} (holds : id ∈ loop.body) :
    id ∈ blocksOf graph around := by
  cases around with
  | none =>
      exact BlockGraph.mem_idSet.2 (isOf.mem_ids (Loop.mem_flattenAll_of_mem nested) holds)
  | some outer =>
      exact (isOf.nested_body (owns outer rfl) (Loop.mem_flattenAll_of_mem nested) holds).1

/-- A continue of a loop outside a region, from a loop nested there, is one of the loop whose body
the region is or of a loop around that one. -/
theorem Continues.not_nested_iff (isOf : forest.IsOf graph) (owns : forest.Owns around)
    (nested : loop ∈ forest.inside around) (source : coord.block ∈ loop.body) {other : Loop}
    (continues : Continues graph forest coord other) :
    other ∉ Loop.flattenAll (forest.inside around) ↔
      ∃ outer ∈ around, other = outer ∨ outer ∈ Loop.flattenAll other.inner := by
  obtain ⟨known, holds⟩ := mem_body_of_continues isOf continues
  exact isOf.not_nested_iff owns (isOf.inside_of_nested owns nested source) known holds

/-! ## What the record of a loop lists -/

section Listed

variable (checked : graph.Checked) (isOf : forest.IsOf graph) (owns : forest.Owns around)
  (nested : loop ∈ forest.inside around)
  (sums : Sums graph forest around (Leaves graph forest loop.body.toList) jumps)

include checked isOf owns nested sums

/-- A coordinate is tested to run the outer loop again if it continues that loop. -/
theorem mem_recursingExits_iff :
    coord ∈ recursingExits jumps (around.map Loop.head) ↔ coord.block ∈ loop.body ∧
      ∃ outer target, around = some outer ∧ graph.HasEdge coord target ∧
        target ∈ outer.entries := by
  rw [mem_recursingExits]
  constructor
  · rintro ⟨head, listed, isHead⟩
    obtain ⟨⟨source, -⟩, other, continues, -, rfl⟩ := sums.continues.1 listed
    obtain ⟨outer, rfl, same⟩ := Option.map_eq_some_iff.1 isHead.symm
    have known := (mem_body_of_continues isOf continues).1
    obtain rfl := isOf.eq_of_head (owns outer rfl) known same
    obtain ⟨target, edge, continued⟩ := continues
    exact ⟨source, outer, target, rfl, edge, (isOf.continued?_eq_some_iff.1 continued).2.1⟩
  · rintro ⟨source, outer, target, rfl, edge, isEntry⟩
    have known := owns outer rfl
    have continues : Continues graph forest coord outer :=
      ⟨target, edge, isOf.continued?_eq_some_iff.2
        ⟨known, isEntry, isOf.inside_of_nested owns nested source⟩⟩
    refine ⟨outer.head, sums.continues.2 ⟨⟨source, fun other plain =>
      absurd continues (plain.not_continues checked)⟩, outer, continues, ?_, rfl⟩, rfl⟩
    exact (continues.not_nested_iff isOf owns nested source).2 ⟨outer, rfl, .inl rfl⟩

/-- A coordinate is tested to leave if it returns, or leads beyond the loop around. -/
theorem mem_leavingExits_iff :
    coord ∈ leavingExits jumps (around.map Loop.head) ↔ coord.block ∈ loop.body ∧
      (graph.IsReturn coord ∨
        (∃ outer, around = some outer ∧ ContinuesAround graph forest outer coord) ∨
        ∃ outer target, around = some outer ∧ graph.HasEdge coord target ∧
          target ∉ outer.body ∧ ¬ ContinuesAround graph forest outer coord) := by
  rw [mem_leavingExits]
  -- A continue is listed if it is one of a loop around the loop around this one.
  have beyond {outer other : Loop} (isAround : around = some outer)
      (source : coord.block ∈ loop.body) (continues : Continues graph forest coord other)
      (within : outer ∈ Loop.flattenAll other.inner) :
      ∃ head, (coord, head) ∈ jumps.continues ∧ some head ≠ around.map Loop.head := by
    subst isAround
    have known := (mem_body_of_continues isOf continues).1
    refine ⟨other.head, sums.continues.2 ⟨⟨source, fun target plain =>
      absurd continues (plain.not_continues checked)⟩, other, continues, ?_, rfl⟩, fun same => ?_⟩
    · exact (continues.not_nested_iff isOf owns nested source).2 ⟨outer, rfl, .inr within⟩
    · obtain rfl := isOf.eq_of_head known (owns outer rfl) (Option.some.inj same)
      exact Nat.lt_irrefl _ (isOf.id_lt known within)
  constructor
  · rintro (⟨head, listed, differs⟩ | ⟨target, exits⟩ | returns)
    · obtain ⟨⟨source, -⟩, other, continues, outside, rfl⟩ := sums.continues.1 listed
      obtain ⟨outer, rfl, rfl | within⟩ :=
        (continues.not_nested_iff isOf owns nested source).1 outside
      · exact absurd rfl differs
      · exact ⟨source, .inr (.inl ⟨outer, rfl, other, continues, within⟩)⟩
    · obtain ⟨⟨source, -⟩, plain, outside⟩ := sums.breaks.1 exits
      cases around with
      | none => exact absurd (BlockGraph.mem_idSet.2 (checked.edge_target_mem plain.1)) outside
      | some outer =>
          exact ⟨source, .inr (.inr ⟨outer, target, rfl, plain.1, outside,
            fun ⟨other, continues, _⟩ => plain.not_continues checked continues⟩)⟩
    · obtain ⟨⟨source, -⟩, isReturn⟩ := sums.returns.1 returns
      exact ⟨source, .inl isReturn⟩
  · rintro ⟨source, isReturn | ⟨outer, isAround, other, continues, within⟩ |
      ⟨outer, target, rfl, edge, outside, notAround⟩⟩
    · refine .inr (.inr (sums.returns.2 ⟨⟨source, fun target plain => ?_⟩, isReturn⟩))
      exact absurd isReturn.2 (by simp [not_isReturning_of_edge checked plain.1])
    · exact .inl (beyond isAround source continues within)
    · refine .inr (.inl ⟨target, sums.breaks.2 ?_⟩)
      have leaves : target ∉ loop.body := fun here =>
        outside (isOf.inside_of_nested owns nested here)
      rcases @plain_or_continues graph forest coord target edge with plain | ⟨other, continues⟩
      · exact ⟨⟨source, fun other plain' => plain.unique checked plain' ▸ leaves⟩, plain, outside⟩
      · obtain ⟨-, isEntry, notNested⟩ :=
          outside_of_continues checked isOf owns nested source edge leaves continues
        obtain ⟨own, same, rfl | within⟩ :=
          (continues.not_nested_iff isOf owns nested source).1 notNested
        · obtain rfl := Option.some.inj same
          exact absurd (isOf.entry_mem_body (owns _ rfl) isEntry) outside
        · obtain rfl := Option.some.inj same
          exact absurd ⟨other, continues, within⟩ notAround

omit isOf owns nested in
/-- The exits after which a loop around is run again, those after which it is left, and the plain
flow exclude each other. -/
theorem exits_apart {head : Option BlockId} :
    [recursingExits jumps head, leavingExits jumps head, jumps.flowCoords].Pairwise
      fun one two => ∀ coord ∈ one, coord ∉ two := by
  have apart := sums.apart checked
  simp only [Jumps.kinds, List.pairwise_cons, List.mem_cons, List.not_mem_nil, or_false,
    forall_eq_or_imp, forall_eq, false_implies, implies_true, List.Pairwise.nil, and_true]
    at apart ⊢
  obtain ⟨⟨flowBreak, flowContinue, flowReturn⟩, ⟨breakContinue, -⟩, continueReturn⟩ := apart
  have continued {coord : Coord} (member : coord ∈ recursingExits jumps head) :
      coord ∈ jumps.continueCoords := by
    obtain ⟨own, listed, -⟩ := mem_recursingExits.1 member
    exact Jumps.mem_continueCoords.2 ⟨own, listed⟩
  refine ⟨⟨fun coord recurses leaves => ?_, fun coord recurses flows =>
    flowContinue coord flows (continued recurses)⟩, fun coord leaves flows => ?_⟩
  · rcases mem_leavingExits.1 leaves with ⟨other, listed, differs⟩ | exits | returns
    · obtain ⟨own, listed', same⟩ := mem_recursingExits.1 recurses
      obtain ⟨-, first, continues, -, rfl⟩ := sums.continues.1 listed
      obtain ⟨-, second, continues', -, rfl⟩ := sums.continues.1 listed'
      exact differs (continues.unique checked continues' ▸ same)
    · exact breakContinue coord (Jumps.mem_breakCoords.2 exits) (continued recurses)
    · exact continueReturn coord (continued recurses) returns
  · rcases mem_leavingExits.1 leaves with ⟨other, listed, -⟩ | exits | returns
    · exact flowContinue coord flows (Jumps.mem_continueCoords.2 ⟨other, listed⟩)
    · exact flowBreak coord flows (Jumps.mem_breakCoords.2 exits)
    · exact flowReturn coord flows returns

/-- What leaves a loop otherwise than by these exits is plain flow in the region around it. -/
theorem mem_flow_iff {head : Option BlockId} :
    (coord, target) ∈ jumps.flow ↔ coord.block ∈ loop.body ∧ graph.HasEdge coord target ∧
      target ∉ loop.body ∧ coord ∉ recursingExits jumps head ∧ coord ∉ leavingExits jumps head := by
  have apart : [recursingExits jumps head, leavingExits jumps head, jumps.flowCoords].Pairwise
      fun one two => ∀ coord ∈ one, coord ∉ two := exits_apart checked sums
  simp only [List.pairwise_cons, List.mem_cons, List.not_mem_nil, or_false, forall_eq_or_imp,
    forall_eq, false_implies, implies_true, List.Pairwise.nil, and_true] at apart
  obtain ⟨⟨-, notRecursing⟩, notLeaving⟩ := apart
  constructor
  · intro flows
    have listed : coord ∈ jumps.flowCoords := Jumps.mem_flowCoords.2 ⟨target, flows⟩
    obtain ⟨⟨source, leaves⟩, plain, -⟩ := sums.flow.1 flows
    exact ⟨source, plain.1, leaves target plain, fun recurses => notRecursing coord recurses listed,
      fun leaves => notLeaving coord leaves listed⟩
  · rintro ⟨source, edge, outside, notRecursing, notLeaving⟩
    rw [mem_recursingExits] at notRecursing
    rw [mem_leavingExits] at notLeaving
    rcases @plain_or_continues graph forest coord target edge with plain | ⟨other, continues⟩
    · have leaves : Leaves graph forest loop.body.toList coord :=
        ⟨source, fun id plain' => plain.unique checked plain' ▸ outside⟩
      refine sums.flow.2 ⟨leaves, plain, ?_⟩
      by_contra away
      exact notLeaving (.inr (.inl ⟨target, sums.breaks.2 ⟨leaves, plain, away⟩⟩))
    · have notNested :=
        (outside_of_continues checked isOf owns nested source edge outside continues).2.2
      have listed : (coord, other.head) ∈ jumps.continues := sums.continues.2
        ⟨⟨source, fun id plain => absurd continues (plain.not_continues checked)⟩, other, continues,
          notNested, rfl⟩
      by_cases own : some other.head = head
      · exact absurd ⟨other.head, listed, own⟩ notRecursing
      · exact absurd (.inl ⟨other.head, listed, own⟩) notLeaving

omit isOf owns nested in
/-- A loop's record lists a return if a block of its body ends in one. -/
theorem returns_isEmpty_iff : (!jumps.returns.isEmpty) = true ↔
    ∃ id ∈ loop.body, graph.isReturning id = true := by
  rw [Bool.not_eq_true', ← Bool.not_eq_true, SortedSet.isEmpty_iff, not_forall]
  simp only [not_not, sums.returns]
  constructor
  · rintro ⟨coord, ⟨source, -⟩, -, returning⟩
    exact ⟨coord.block, source, returning⟩
  · rintro ⟨id, holds, returning⟩
    refine ⟨⟨id, .exit⟩, ⟨holds, fun target plain => ?_⟩, rfl, returning⟩
    exact absurd returning (by simp [not_isReturning_of_edge checked plain.1])

end Listed

/-! ## The loop node of a loop -/

/-- The loop node of a loop in a marked tree sorts the exits of the loop. -/
theorem Fits.sortsExits (checked : graph.Checked) (isOf : forest.IsOf graph)
    (owns : forest.Owns around) {recorded : CoordSet} {node : Tree}
    (fits : Fits graph forest (Noted graph forest recorded) around node)
    (known : loop ∈ forest.all) (isHead : node.loopHead? = some loop.head) :
    ∃ recurseOn returnOn, node.SortsExits graph forest loop recurseOn returnOn := by
  cases fits with
  | jump | conditional | sequence | merge => cases isHead
  | @loop _ label body other part noted nested same heads whole fits =>
      have isOther := owns.mem_all (Loop.mem_flattenAll_of_mem nested)
      obtain rfl : other = loop :=
        isOf.eq_of_head isOther known (same.symm.trans (Option.some.inj isHead))
      obtain ⟨recurseOn, returnOn, value⟩ := noted
      have parent := isOf.parent?_eq owns nested
      have sums : Sums graph forest around (Leaves graph forest other.body.toList) label.jumps := by
        refine part.ways.congr fun coord _ => ?_
        simp only [Leaves, Tree.blocks_loop, whole, SortedSet.mem_toList]
      refine ⟨_, _, recurseOn, returnOn, fun coord => ?_, fun coord => ?_, fun coord target => ?_,
        exits_apart checked sums, _, value, returns_isEmpty_iff checked sums⟩
      · rw [mem_recursingExits_iff checked isOf owns nested sums, parent]
      · rw [mem_leavingExits_iff checked isOf owns nested sums, parent]
      · exact mem_flow_iff checked isOf owns nested sums

/-- Each loop has one loop node in a tree that holds all blocks. -/
theorem Fits.exists_loopNode (isOf : forest.IsOf graph) {NotedAs : Option Loop → Tree → Prop}
    {tree : Tree} (fits : Fits graph forest NotedAs none tree)
    (whole : ∀ id, id ∈ tree.blocks ↔ id ∈ graph.ids) (known : loop ∈ forest.all) :
    ∃ node region, node.loopHead? = some loop.head ∧ forest.Owns region ∧
      Fits graph forest NotedAs region node ∧
        tree.nodes.filter (fun node => node.loopHead? = some loop.head) = [node] := by
  have inside := isOf.mem_ids known (isOf.entry_mem_body known (isOf.head_mem known))
  have isHead : loop.head ∈ (tree.nestings none).map Prod.fst :=
    List.mem_map.2 ⟨_, (fits.mem_nestings_iff isOf owns_none).2
      ⟨loop, known, (whole _).2 inside, rfl, rfl⟩, rfl⟩
  have distinct := fits.nodup_nestings isOf owns_none
  rw [Option.map_none, fits.map_fst_nestings] at distinct
  rw [fits.map_fst_nestings] at isHead
  obtain ⟨node, same, list⟩ := exists_filter_eq_singleton distinct isHead
  have member : node ∈ tree.nodes := List.mem_of_mem_filter (list ▸ List.mem_singleton_self node)
  obtain ⟨region, owns, fitsNode⟩ := fits.of_mem_nodes owns_none member
  exact ⟨node, region, same, owns, fitsNode, list⟩

end LoopExits

/-- Every graph built from a list of blocks is structured and marked, and the one loop node of each
loop then sorts the ways out of the loop's body. -/
theorem BlockGraph.exists_marked_exits {entry : BlockId} {blocks : List Block}
    {graph : BlockGraph} (built : BlockGraph.ofBlocks entry blocks = .ok graph) :
    ∃ found tree flags, graph.toStructured = .ok found ∧
      LoopForest.ofGraph graph = .ok found.forest ∧
      found.root.marked found.recursing = .ok (tree, flags) ∧
      ∀ loop ∈ found.forest.all, ∃ node recurseOn returnOn,
        tree.nodes.filter (fun node => node.loopHead? = some loop.head) = [node] ∧
          node.SortsExits graph found.forest loop recurseOn returnOn := by
  have checked := checked_ofBlocks built
  obtain ⟨found, made, search, isFound⟩ := checked.exists_toStructured
  obtain ⟨tree, flags, marked, isMarked⟩ := isFound.exists_marked checked
  refine ⟨found, tree, flags, made, search, marked, fun loop known => ?_⟩
  obtain ⟨node, region, isHead, owns, fits, list⟩ :=
    isMarked.fits.exists_loopNode isFound.isOf isMarked.whole known
  obtain ⟨recurseOn, returnOn, sorts⟩ := fits.sortsExits checked isFound.isOf owns known isHead
  exact ⟨node, recurseOn, returnOn, list, sorts⟩

/-- The inner of two loops sorts its exits by where they lead. -/
theorem BlockGraph.exists_marked_exits_doublySpinning : ∃ graph found tree flags loop node recurseOn
    returnOn, BlockGraph.ofBlocks ⟨0⟩ doublySpinningBlocks = .ok graph ∧
      graph.toStructured = .ok found ∧ found.root.marked found.recursing = .ok (tree, flags) ∧
      loop ∈ found.forest.all ∧ loop.head = ⟨2⟩ ∧
      tree.nodes.filter (fun node => node.loopHead? = some loop.head) = [node] ∧
      node.SortsExits graph found.forest loop recurseOn returnOn := by
  have built : BlockGraph.ofBlocks ⟨0⟩ doublySpinningBlocks = .ok _ := rfl
  obtain ⟨found, tree, flags, made, search, marked, sorts⟩ := BlockGraph.exists_marked_exits built
  have heads : (BlockGraph.ofBlocks ⟨0⟩ doublySpinningBlocks).toOption.bind (fun graph =>
      (LoopForest.ofGraph graph).toOption.map fun forest => forest.all.map Loop.head) =
      some [⟨1⟩, ⟨2⟩] := by
    decide
  rw [built, Except.toOption, Option.bind_some, search, Except.toOption, Option.map_some,
    Option.some.injEq] at heads
  have listed : ⟨2⟩ ∈ found.forest.all.map Loop.head := by simp [heads]
  obtain ⟨loop, known, isHead⟩ := List.mem_map.1 listed
  obtain ⟨node, recurseOn, returnOn, list, sorted⟩ := sorts loop known
  exact ⟨_, found, tree, flags, loop, node, recurseOn, returnOn, built, made, marked, known, isHead,
    list, sorted⟩

end GotoFree
