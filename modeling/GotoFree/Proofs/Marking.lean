import GotoFree.Proofs.Gates
import GotoFree.Proofs.Structure

/-!
# Marking a structured graph

A tree that fits a region is marked without a defect (`exists_mark`), and the result is the same
tree with the notes that its way of being run needs (`Noted`). The flags of a whole method say of
each way out of a block whether it leaves the innermost loop around the block (`Flags.AreOf`).
-/

namespace GotoFree

open LoopForest

/-- A way out of a block that leaves the innermost loop around it. -/
def Escapes (graph : BlockGraph) (forest : LoopForest) (coord : Coord) : Prop :=
  ∃ loop, forest.innermost? coord.block = some loop ∧
    ((∃ target, Plain graph forest coord target ∧ target ∉ loop.body) ∨
      ∃ other, Continues graph forest coord other ∧ other ≠ loop)

/-- The exit of a block that ends in a return. -/
def BlockGraph.IsReturn (graph : BlockGraph) (coord : Coord) : Prop :=
  coord.branch = .exit ∧ graph.isReturning coord.block = true

/-- The notes of a node serve the way it is run, given the coordinates that are recorded. -/
def Noted (graph : BlockGraph) (forest : LoopForest) (recorded : CoordSet)
    (around : Option Loop) : Tree → Prop
  | .jump .. | .conditional .. | .sequence _ [] => True
  | .sequence _ (first :: rest) =>
      first.notes.gateOn = none ∧ AllGated graph forest recorded around first.blocks rest
  | .loop label _ _ =>
      label.notes.recurseOn = some (recursingExits label.jumps (around.map Loop.head)) ∧
        label.notes.returnOn = some (leavingExits label.jumps (around.map Loop.head)) ∧
        label.notes.valueLoop = some (!label.jumps.returns.isEmpty)
  | .merge label _ incoming =>
      label.notes.chooseBy = some incoming ∧
        ∀ entry coords, incoming.get? entry = some coords → ∀ coord ∈ coords, coord ∈ recorded

/-- Two trees that differ in notes at most. -/
structure Tree.Alike (one two : Tree) : Prop where
  head : one.head = two.head
  jumps : one.jumps = two.jumps
  blocks : one.blocks = two.blocks
  heads : one.heads = two.heads
  headless : one.isHeadless = two.isHeadless
  flat : one.isSequence = two.isSequence

/-- The flags of a part of a region say which ways out of the loops in it leave them, and record
these and the returns in the loops. -/
structure Flags.Inside (graph : BlockGraph) (forest : LoopForest) (around : Option Loop)
    (blocks : List BlockId) (flags : Flags) : Prop where
  sound : ∀ coord ∈ flags.leaving, Escapes graph forest coord
  escapes : ∀ coord, coord.block ∈ blocks → forest.innermost? coord.block ≠ around →
    Escapes graph forest coord → coord ∈ flags.leaving ∧ coord ∈ flags.recorded
  returns : ∀ coord, coord.block ∈ blocks → forest.innermost? coord.block ≠ around →
    graph.IsReturn coord → coord ∈ flags.recorded

/-- The flags of a part of a loop's body say which ways out of the part leave the loop, and record
these and the returns. -/
structure Flags.Outward (graph : BlockGraph) (forest : LoopForest) (around : Option Loop)
    (blocks : List BlockId) (flags : Flags) : Prop where
  sound : ∀ coord ∈ flags.leaving, Escapes graph forest coord
  exits : ∀ loop ∈ around, ∀ coord target, coord.block ∈ blocks →
    Plain graph forest coord target → target ∉ loop.body →
      coord ∈ flags.leaving ∧ coord ∈ flags.recorded
  returns : ∀ loop ∈ around, ∀ coord, coord.block ∈ blocks → graph.IsReturn coord →
    coord ∈ flags.recorded

namespace Tree.Alike

/-- A tree is like itself. -/
@[refl] theorem refl (tree : Tree) : tree.Alike tree := ⟨rfl, rfl, rfl, rfl, rfl, rfl⟩

/-- A gate changes neither the blocks nor the jumps of a tree. -/
theorem gateOn (tree : Tree) (gate : Option CoordSet) : (tree.gateOn gate).Alike tree where
  head := by cases tree <;> rfl
  jumps := by cases tree <;> rfl
  blocks := blocks_gateOn
  heads := heads_gateOn
  headless := by
    cases tree with
    | sequence label elems => cases elems <;> rfl
    | jump | conditional | loop | merge => rfl
  flat := by cases tree <;> rfl

end Tree.Alike

section Marking

variable {graph : BlockGraph} {forest : LoopForest} {around : Option Loop}

/-- A tree is a part of a region if one like it is. -/
theorem IsPartOf.alike {one two : Tree} (part : IsPartOf graph forest around one)
    (alike : two.Alike one) : IsPartOf graph forest around two where
  inside := alike.blocks ▸ part.inside
  distinct := alike.blocks ▸ part.distinct
  head_mem := alike.heads ▸ alike.head ▸ part.head_mem
  heads_mem := alike.heads ▸ alike.blocks ▸ part.heads_mem
  entered := by
    rw [alike.heads, alike.blocks]
    exact part.entered
  ways := by
    rw [alike.jumps, alike.blocks]
    exact part.ways

/-- A gate does not change how a node fits. -/
theorem Fits.gateOn {recorded : CoordSet} {tree : Tree}
    (fits : Fits graph forest (Noted graph forest recorded) around tree)
    (gate : Option CoordSet) :
    Fits graph forest (Noted graph forest recorded) around (tree.gateOn gate) := by
  have part := fits.part.alike (.gateOn tree gate)
  cases fits with
  | jump _ _ direct straight leaves => exact .jump part trivial direct straight leaves
  | conditional _ _ direct branching edges takenArm notTakenArm takenLeaves notTakenLeaves
      takenFits notTakenFits =>
      refine .conditional part trivial direct branching edges takenArm notTakenArm ?_ ?_
        takenFits notTakenFits
      · simpa using takenLeaves
      · simpa using notTakenLeaves
  | sequence _ noted chain flat fits => exact .sequence part noted chain flat fits
  | loop _ noted nested head heads whole fits => exact .loop part noted nested head heads whole fits
  | merge _ noted heads several isEntry incoming_iff leaves fits =>
      refine .merge part noted heads several isEntry incoming_iff ?_ fits
      simpa using leaves

/-! ## The flags of one node -/

/-- The innermost loop around a block of a loop is that loop or lies in it. -/
theorem exists_innermost (isOf : forest.IsOf graph) {loop : Loop} (known : loop ∈ forest.all)
    {id : BlockId} (holds : id ∈ loop.body) : ∃ inner, forest.innermost? id = some inner ∧
      (inner = loop ∨ inner ∈ Loop.flattenAll loop.inner) := by
  cases innermost : forest.innermost? id with
  | none =>
      have direct := isOf.innermost?_eq_none_iff.1 innermost
      exact absurd known (not_nested_of_direct isOf owns_none direct holds)
  | some inner =>
      obtain ⟨isInner, within, direct⟩ := isOf.innermost?_eq_some_iff.1 innermost
      refine ⟨inner, rfl, ?_⟩
      rcases isOf.position isInner known within holds with same | outside | nested
      · exact .inl same
      · exact absurd outside (not_nested_of_direct isOf (owns_some isInner) direct holds)
      · exact .inr nested

/-- A plain edge out of a loop leaves the innermost loop around its source. -/
theorem escapes_of_exit (isOf : forest.IsOf graph) {loop : Loop} (known : loop ∈ forest.all)
    {coord : Coord} {target : BlockId} (holds : coord.block ∈ loop.body)
    (plain : Plain graph forest coord target) (outside : target ∉ loop.body) :
    Escapes graph forest coord := by
  obtain ⟨inner, innermost, place⟩ := exists_innermost isOf known holds
  refine ⟨inner, innermost, .inl ⟨target, plain, ?_⟩⟩
  rcases place with rfl | nested
  · exact outside
  · exact fun within => outside (isOf.nested_body known nested within).1

/-- A continue out of a nested loop that goes on with a loop around its region leaves the innermost
loop around its source, and does not run that loop again. -/
theorem escapes_of_continues (isOf : forest.IsOf graph) (owns : forest.Owns around) {loop : Loop}
    (nested : loop ∈ forest.inside around) {coord : Coord} (holds : coord.block ∈ loop.body)
    {other : Loop} (continues : Continues graph forest coord other)
    (outside : other ∉ Loop.flattenAll (forest.inside around)) :
    Escapes graph forest coord ∧ forest.innermost? coord.block ≠ some other := by
  have within := Loop.mem_flattenAll_of_mem nested
  obtain ⟨inner, innermost, place⟩ := exists_innermost isOf (owns.mem_all within) holds
  have isInside : inner ∈ Loop.flattenAll (forest.inside around) := by
    rcases place with rfl | deeper
    · exact within
    · exact Loop.mem_flattenAll_of_inner within deeper
  have differ : other ≠ inner := fun same => outside (same ▸ isInside)
  refine ⟨⟨inner, innermost, .inr ⟨other, continues, differ⟩⟩, fun same => differ ?_⟩
  exact Option.some.inj (same.symm.trans innermost)

/-- The ways out of a node are flagged without a defect: each that leaves the loop around the
region, and each by which a loop in it goes on with a loop around. -/
theorem exists_ownFlags (checked : graph.Checked) (isOf : forest.IsOf graph)
    (owns : forest.Owns around) {tree : Tree} (part : IsPartOf graph forest around tree)
    {recursing : CoordSet}
    (recursingIff : ∀ coord, coord ∈ recursing ↔ Recurses graph forest coord)
    (isLoop : tree.isLoop = true →
      ∃ loop ∈ forest.inside around, ∀ id ∈ tree.blocks, id ∈ loop.body) :
    ∃ own, ownFlags recursing (around.map Loop.head) tree = .ok own ∧
      own.Outward graph forest around tree.blocks ∧
      (tree.isLoop = true → around ≠ .none → ∀ coord other, coord.block ∈ tree.blocks →
        Continues graph forest coord other →
          other ∉ Loop.flattenAll (forest.inside around) →
          coord ∈ own.leaving ∧ coord ∈ own.recorded) := by
  cases around with
  | none =>
      refine ⟨.none, ?_, ⟨by simp [Flags.none], by simp, by simp⟩, fun _ other => absurd rfl other⟩
      simp [ownFlags, part.ways.leavesLoop_none checked isOf]
  | some outer =>
      have known := owns outer rfl
      have exits {coord : Coord} : coord ∈ tree.jumps.breakCoords ↔
          Leaves graph forest tree.blocks coord ∧
            ∃ target, Plain graph forest coord target ∧ target ∉ outer.body := by
        rw [Jumps.breakCoords, SortedSet.mem_ofList, SortedMap.mem_keys_iff]
        simp only [part.ways.breaks, exists_and_left]
        rfl
      have continues {coord : Coord} (member : coord ∈ (if tree.isLoop = true then
          tree.jumps.continues.toList.map Prod.fst else [])) :
          ∃ loop ∈ forest.inside (some outer), ∃ other, coord.block ∈ loop.body ∧
            Continues graph forest coord other ∧
            other ∉ Loop.flattenAll (forest.inside (some outer)) := by
        split at member
        · next loop =>
            obtain ⟨inner, nested, whole⟩ := isLoop loop
            obtain ⟨⟨_, head⟩, among, rfl⟩ := List.mem_map.1 member
            obtain ⟨leaves, other, continues, outside, -⟩ := part.ways.continues.1 among
            exact ⟨inner, nested, other, whole _ leaves.1, continues, outside⟩
        · cases member
      have disjoint : (if tree.isLoop = true then tree.jumps.continues.toList.map Prod.fst
          else []).find? (· ∈ recursing) = none := by
        rw [List.find?_eq_none]
        intro coord member recurses
        obtain ⟨loop, nested, other, holds, goesOn, outside⟩ := continues member
        obtain ⟨again, itself, innermost⟩ := (recursingIff coord).1 (by simpa using recurses)
        cases goesOn.unique checked itself
        exact (escapes_of_continues isOf owns nested holds goesOn outside).2 innermost
      have made : ownFlags recursing ((some outer).map Loop.head) tree = .ok
          { recorded := tree.jumps.returns.union (tree.jumps.breakCoords.union (.ofList
              (if tree.isLoop = true then tree.jumps.continues.toList.map Prod.fst else [])))
            leaving := tree.jumps.breakCoords.union (.ofList
              (if tree.isLoop = true then tree.jumps.continues.toList.map Prod.fst else []))
            recursing := .empty } := by
        simp only [ownFlags, Option.map_some, disjoint, pure_eq_ok]
      refine ⟨_, made, ⟨?_, ?_, ?_⟩, ?_⟩
      · intro coord leaving
        simp only [SortedSet.mem_union, SortedSet.mem_ofList] at leaving
        rcases leaving with exit | member
        · obtain ⟨⟨source, -⟩, target, plain, outside⟩ := exits.1 exit
          exact escapes_of_exit isOf known (part.inside _ source) plain outside
        · obtain ⟨loop, nested, other, holds, goesOn, outside⟩ := continues member
          exact (escapes_of_continues isOf owns nested holds goesOn outside).1
      · rintro _ ⟨⟩ coord target source plain outside
        have leaves : Leaves graph forest tree.blocks coord :=
          ⟨source, fun other plain' => plain.unique checked plain' ▸
            fun here => outside (part.inside _ here)⟩
        simp [exits.2 ⟨leaves, target, plain, outside⟩]
      · rintro _ ⟨⟩ coord source returns
        have leaves : Leaves graph forest tree.blocks coord :=
          ⟨source, fun other plain => by
            simpa [returns.2] using not_isReturning_of_edge checked plain.1⟩
        simp [part.ways.returns.2 ⟨leaves, returns⟩]
      · intro loop _ coord other source goesOn outside
        have leaves : Leaves graph forest tree.blocks coord :=
          ⟨source, fun _ plain => absurd goesOn (plain.not_continues checked)⟩
        have member := part.ways.continues.2 ⟨leaves, other, goesOn, outside, rfl⟩
        have among : coord ∈ tree.jumps.continues.toList.map Prod.fst :=
          List.mem_map.2 ⟨_, member, rfl⟩
        simp [loop, among]

namespace Flags.Inside

variable {blocks others : List BlockId} {flags more : Flags}

/-- No flags are recorded in no blocks. -/
theorem nil : Inside graph forest around [] .none where
  sound := by simp [Flags.none]
  escapes := by simp
  returns := by simp

/-- The flags of two parts lie inside the blocks of both. -/
theorem union (one : flags.Inside graph forest around blocks)
    (two : more.Inside graph forest around others) :
    (flags.union more).Inside graph forest around (blocks ++ others) where
  sound coord leaving :=
    (SortedSet.mem_union.1 leaving).elim (one.sound coord) (two.sound coord)
  escapes coord here nested escapes := by
    simp only [Flags.union, SortedSet.mem_union]
    rcases List.mem_append.1 here with here | here
    · have both := one.escapes coord here nested escapes
      exact ⟨.inl both.1, .inl both.2⟩
    · have both := two.escapes coord here nested escapes
      exact ⟨.inr both.1, .inr both.2⟩
  returns coord here nested returns := by
    simp only [Flags.union, SortedSet.mem_union]
    exact (List.mem_append.1 here).imp (one.returns coord · nested returns)
      (two.returns coord · nested returns)

/-- Coordinates may be recorded besides the others. -/
theorem record (inside : flags.Inside graph forest around blocks) (coords : CoordSet) :
    (flags.union (.ofRecorded coords)).Inside graph forest around blocks := by
  have more : Inside graph forest around [] (.ofRecorded coords) :=
    ⟨by simp [Flags.ofRecorded, Flags.none], by simp, by simp⟩
  simpa using inside.union more

/-- A block of the region may be added. -/
theorem cons {id : BlockId} (inside : flags.Inside graph forest around blocks)
    (direct : forest.innermost? id = around) :
    flags.Inside graph forest around (id :: blocks) where
  sound := inside.sound
  escapes coord here nested := by
    rcases List.mem_cons.1 here with same | here
    · exact absurd (same ▸ direct) nested
    · exact inside.escapes coord here nested
  returns coord here nested := by
    rcases List.mem_cons.1 here with same | here
    · exact absurd (same ▸ direct) nested
    · exact inside.returns coord here nested

/-- With the flags of a node's own ways out the node is covered. -/
theorem own (inside : flags.Inside graph forest around blocks)
    (outward : more.Outward graph forest around blocks) :
    (flags.union more).Inside graph forest around blocks ∧
      (flags.union more).Outward graph forest around blocks := by
  have sound (coord : Coord) (leaving : coord ∈ (flags.union more).leaving) :
      Escapes graph forest coord :=
    (SortedSet.mem_union.1 leaving).elim (inside.sound coord) (outward.sound coord)
  refine ⟨⟨sound, ?_, ?_⟩, ⟨sound, ?_, ?_⟩⟩
  · intro coord here nested escapes
    have both := inside.escapes coord here nested escapes
    exact ⟨SortedSet.mem_union.2 (.inl both.1), SortedSet.mem_union.2 (.inl both.2)⟩
  · intro coord here nested returns
    exact SortedSet.mem_union.2 (.inl (inside.returns coord here nested returns))
  · intro loop isAround coord target here plain outside
    have both := outward.exits loop isAround coord target here plain outside
    exact ⟨SortedSet.mem_union.2 (.inr both.1), SortedSet.mem_union.2 (.inr both.2)⟩
  · intro loop isAround coord here returns
    exact SortedSet.mem_union.2 (.inr (outward.returns loop isAround coord here returns))

end Flags.Inside

/-! ## Marking -/

/-- What a tree of a region is marked as, and with which flags. -/
structure IsMarked (graph : BlockGraph) (forest : LoopForest) (around : Option Loop)
    (tree marked : Tree) (flags : Flags) : Prop where
  alike : marked.Alike tree
  ungated : marked.notes.gateOn = .none
  inside : flags.Inside graph forest around tree.blocks
  outward : flags.Outward graph forest around tree.blocks
  fits : ∀ recorded : CoordSet, (∀ coord ∈ flags.recorded, coord ∈ recorded) →
    Fits graph forest (Noted graph forest recorded) around marked

/-- A tree of a region is marked without a defect. -/
def Markable (graph : BlockGraph) (forest : LoopForest) (recursing : CoordSet)
    (around : Option Loop) (tree : Tree) : Prop :=
  ∃ marked flags, tree.mark recursing (around.map Loop.head) = .ok (marked, flags) ∧
    IsMarked graph forest around tree marked flags

/-- Trees that are alike have the same blocks. -/
theorem map_blocks_of_alike {marked trees : List Tree}
    (related : List.Forall₂ Tree.Alike marked trees) :
    marked.map Tree.blocks = trees.map Tree.blocks := by
  induction related with
  | nil => rfl
  | cons alike _ ih => rw [List.map_cons, List.map_cons, alike.blocks, ih]

/-- Trees that are alike have the same heads. -/
theorem map_heads_of_alike {marked trees : List Tree}
    (related : List.Forall₂ Tree.Alike marked trees) :
    marked.map Tree.heads = trees.map Tree.heads := by
  induction related with
  | nil => rfl
  | cons alike _ ih => rw [List.map_cons, List.map_cons, alike.heads, ih]

theorem headsOfAll_of_alike {marked trees : List Tree}
    (related : List.Forall₂ Tree.Alike marked trees) :
    Tree.headsOfAll marked = Tree.headsOfAll trees := by
  induction related with
  | nil => rfl
  | cons alike _ ih => rw [Tree.headsOfAll, Tree.headsOfAll, alike.heads, ih]

/-- Trees that are alike are headless alike. -/
theorem anyHeadless_of_alike {marked trees : List Tree}
    (related : List.Forall₂ Tree.Alike marked trees) :
    Tree.anyHeadless marked = Tree.anyHeadless trees := by
  induction related with
  | nil => rfl
  | cons alike _ ih => rw [Tree.anyHeadless, Tree.anyHeadless, alike.headless, ih]

/-- A chain is one of block lists. -/
theorem Chain.congr {elems others : List Tree} (chain : Chain graph forest elems)
    (same : others.map Tree.blocks = elems.map Tree.blocks) : Chain graph forest others where
  apart := by
    have pairs := (List.pairwise_map (f := Tree.blocks)
      (R := fun first second => ∀ id ∈ first, id ∉ second)).2 chain.apart
    rw [← same] at pairs
    exact List.pairwise_map.1 pairs
  ordered := by
    have pairs := (List.pairwise_map (f := Tree.blocks) (R := fun first second =>
      ∀ coord target, Plain graph forest coord target → coord.block ∈ second →
        target ∉ first)).2 chain.ordered
    rw [← same] at pairs
    exact List.pairwise_map.1 pairs
  reached := by
    rintro front tree rest rfl started
    rw [List.map_append, List.map_cons] at same
    obtain ⟨before, after, rfl, sameFront, sameAfter⟩ := List.map_eq_append_iff.1 same.symm
    obtain ⟨other, rest, rfl, sameTree, -⟩ := List.map_eq_cons_iff.1 sameAfter
    have nonempty : before ≠ [] := by
      rintro rfl
      exact started (List.map_eq_nil_iff.1 sameFront.symm)
    obtain ⟨coord, target, plain, ⟨earlier, among, source⟩, here⟩ :=
      chain.reached before other rest rfl nonempty
    have listed : earlier.blocks ∈ front.map Tree.blocks := sameFront ▸ List.mem_map_of_mem among
    obtain ⟨found, isFound, sameBlocks⟩ := List.mem_map.1 listed
    exact ⟨coord, target, plain, ⟨found, isFound, sameBlocks ▸ source⟩, sameTree ▸ here⟩

/-- What the trees of a list are marked as. -/
theorem exists_markAll {recursing : CoordSet} {trees : List Tree}
    (each : ∀ tree ∈ trees, Markable graph forest recursing around tree) :
    ∃ marked flags, Tree.markAll recursing (around.map Loop.head) trees = .ok (marked, flags) ∧
      List.Forall₂ Tree.Alike marked trees ∧ (∀ tree ∈ marked, tree.notes.gateOn = .none) ∧
      flags.Inside graph forest around (trees.flatMap Tree.blocks) ∧
      ∀ recorded : CoordSet, (∀ coord ∈ flags.recorded, coord ∈ recorded) →
        ∀ tree ∈ marked, Fits graph forest (Noted graph forest recorded) around tree := by
  induction trees with
  | nil => exact ⟨[], .none, rfl, .nil, by simp, .nil, by simp⟩
  | cons tree rest ih =>
      obtain ⟨first, own, here, isFirst⟩ := each tree (by simp)
      obtain ⟨others, flags, later, alike, ungated, inside, fits⟩ :=
        ih fun other member => each other (List.mem_cons_of_mem _ member)
      refine ⟨first :: others, own.union flags, by simp [Tree.markAll, here, later],
        .cons isFirst.alike alike, ?_, isFirst.inside.union inside, fun recorded subset => ?_⟩
      · simpa using ⟨isFirst.ungated, ungated⟩
      · intro other member
        rcases List.mem_cons.1 member with rfl | member
        · exact isFirst.fits recorded fun coord known =>
            subset coord (SortedSet.mem_union.2 (.inl known))
        · exact fits recorded (fun coord known =>
            subset coord (SortedSet.mem_union.2 (.inr known))) other member

/-- What an arm of a block is marked as. -/
structure IsMarkedArm (graph : BlockGraph) (forest : LoopForest) (around : Option Loop)
    (coord : Coord) (target : BlockId) (arm marked : Arm) (flags : Flags) : Prop where
  blocks : Tree.blocksOfArm marked = Tree.blocksOfArm arm
  isArm : IsArm graph forest around coord target marked
  ways : armWays graph forest coord marked = armWays graph forest coord arm
  inside : flags.Inside graph forest around (Tree.blocksOfArm arm)
  fits : ∀ recorded : CoordSet, (∀ coord ∈ flags.recorded, coord ∈ recorded) →
    ∀ tree, marked = .nested tree → Fits graph forest (Noted graph forest recorded) around tree

/-- An arm is marked as its tree is. -/
theorem exists_markArm (checked : graph.Checked) (isOf : forest.IsOf graph)
    (owns : forest.Owns around) {recursing : CoordSet} {coord : Coord} {target : BlockId}
    (source : coord.block ∈ blocksOf graph around) {arm : Arm}
    (isArm : IsArm graph forest around coord target arm)
    (each : ∀ tree, arm = .nested tree → Markable graph forest recursing around tree) :
    ∃ marked flags, Tree.markArm recursing (around.map Loop.head) arm = .ok (marked, flags) ∧
      IsMarkedArm graph forest around coord target arm marked flags := by
  cases isArm with
  | @jump jumps sums =>
      refine ⟨_, _, rfl, rfl, .jump sums, rfl, ⟨fun way leaving => ?_, ?_, ?_⟩, by simp⟩
      · simp only [Flags.ofLeaving, Jumps.breakCoords, SortedSet.mem_ofList,
          SortedMap.mem_keys_iff] at leaving
        obtain ⟨other, isBreak⟩ := leaving
        obtain ⟨rfl, plain, outside⟩ := sums.breaks.1 isBreak
        cases around with
        | none => exact absurd (BlockGraph.mem_idSet.2 (checked.edge_target_mem plain.1)) outside
        | some loop => exact escapes_of_exit isOf (owns loop rfl) source plain outside
      · simp [Tree.blocksOfArm]
      · simp [Tree.blocksOfArm]
  | @nested tree plain heads =>
      obtain ⟨marked, flags, made, isMarked⟩ := each tree rfl
      refine ⟨.nested marked, flags, by simp [Tree.markArm, made], isMarked.alike.blocks,
        .nested plain (isMarked.alike.heads.trans heads), ?_, isMarked.inside, ?_⟩
      · simp only [armWays, isMarked.alike.blocks]
      · rintro recorded subset _ ⟨⟩
        exact isMarked.fits recorded subset

section Nodes

variable (checked : graph.Checked) (isOf : forest.IsOf graph) (owns : forest.Owns around)
  {recursing : CoordSet}
  (recursingIff : ∀ coord, coord ∈ recursing ↔ Recurses graph forest coord)

include checked isOf owns recursingIff

/-- The node of a block that does not branch can be marked. -/
theorem markable_jump {label : Label}
    (part : IsPartOf graph forest around (.jump label ⟨label.head, .exit⟩))
    (fresh : label.notes = .none) (direct : forest.innermost? label.head = around)
    (straight : graph.isBranching label.head = false)
    (leaves : Leaves graph forest [label.head] ⟨label.head, .exit⟩) :
    Markable graph forest recursing around (.jump label ⟨label.head, .exit⟩) := by
  obtain ⟨own, made, outward, -⟩ := exists_ownFlags checked isOf owns part recursingIff
    (by simp [Tree.isLoop])
  refine ⟨_, own, by simp [Tree.mark, made], .refl _, congrArg Notes.gateOn fresh, ?_, outward,
    fun _ _ => .jump part trivial direct straight leaves⟩
  refine ⟨outward.sound, fun coord here nested => ?_, fun coord here nested => ?_⟩
  all_goals
    rw [Tree.blocks_jump, List.mem_singleton] at here
    exact absurd (here ▸ direct) nested

/-- A conditional can be marked if its arms can. -/
theorem markable_conditional {label : Label} {taken notTaken : Arm}
    {takenTarget notTakenTarget : BlockId}
    (part : IsPartOf graph forest around (.conditional label taken notTaken))
    (fresh : label.notes = .none) (direct : forest.innermost? label.head = around)
    (branching : graph.isBranching label.head = true)
    (edges : graph.outEdges label.head =
      [(⟨label.head, .taken⟩, takenTarget), (⟨label.head, .notTaken⟩, notTakenTarget)])
    (takenArm : IsArm graph forest around ⟨label.head, .taken⟩ takenTarget taken)
    (notTakenArm : IsArm graph forest around ⟨label.head, .notTaken⟩ notTakenTarget notTaken)
    (takenLeaves : ∀ way, armWays graph forest ⟨label.head, .taken⟩ taken way →
      Leaves graph forest (Tree.conditional label taken notTaken).blocks way)
    (notTakenLeaves : ∀ way, armWays graph forest ⟨label.head, .notTaken⟩ notTaken way →
      Leaves graph forest (Tree.conditional label taken notTaken).blocks way)
    (takenEach : ∀ tree, taken = .nested tree → Markable graph forest recursing around tree)
    (notTakenEach : ∀ tree, notTaken = .nested tree →
      Markable graph forest recursing around tree) :
    Markable graph forest recursing around (.conditional label taken notTaken) := by
  have source : label.head ∈ blocksOf graph around := part.inside _ (by simp)
  obtain ⟨own, made, outward, -⟩ := exists_ownFlags checked isOf owns part recursingIff
    (by simp [Tree.isLoop])
  obtain ⟨left, leftFlags, leftMade, isLeft⟩ :=
    exists_markArm checked isOf owns source takenArm takenEach
  obtain ⟨right, rightFlags, rightMade, isRight⟩ :=
    exists_markArm checked isOf owns source notTakenArm notTakenEach
  have blocks : (Tree.conditional label left right).blocks =
      (Tree.conditional label taken notTaken).blocks := by
    rw [Tree.blocks_conditional, Tree.blocks_conditional, isLeft.blocks, isRight.blocks]
  have alike : (Tree.conditional label left right).Alike (.conditional label taken notTaken) :=
    ⟨rfl, rfl, blocks, rfl, rfl, rfl⟩
  have inside : (leftFlags.union rightFlags).Inside graph forest around
      (Tree.conditional label taken notTaken).blocks := by
    rw [Tree.blocks_conditional]
    exact .cons (isLeft.inside.union isRight.inside) direct
  obtain ⟨insideAll, outwardAll⟩ := inside.own outward
  refine ⟨.conditional label left right, (leftFlags.union rightFlags).union own,
    by simp [Tree.mark, leftMade, rightMade, made], alike, congrArg Notes.gateOn fresh, insideAll,
    outwardAll, fun recorded subset => ?_⟩
  simp only [Flags.union, SortedSet.mem_union] at subset
  refine .conditional (part.alike alike) trivial direct branching edges isLeft.isArm isRight.isArm
    ?_ ?_ (isLeft.fits recorded fun coord known => subset coord (.inl (.inl known)))
    (isRight.fits recorded fun coord known => subset coord (.inl (.inr known)))
  · rw [isLeft.ways, blocks]
    exact takenLeaves
  · rw [isRight.ways, blocks]
    exact notTakenLeaves

/-- A sequence can be marked if its elements can. -/
theorem markable_sequence {label : Label} {first : Tree} {rest : List Tree}
    (part : IsPartOf graph forest around (.sequence label (first :: rest)))
    (fresh : label.notes = .none) (chain : Chain graph forest (first :: rest))
    (flat : ∀ tree ∈ first :: rest, tree.isSequence = false)
    (fits : ∀ tree ∈ first :: rest, Fits graph forest Bare around tree)
    (each : ∀ tree ∈ first :: rest, Markable graph forest recursing around tree) :
    Markable graph forest recursing around (.sequence label (first :: rest)) := by
  obtain ⟨own, made, outward, -⟩ := exists_ownFlags checked isOf owns part recursingIff
    (by simp [Tree.isLoop])
  obtain ⟨marked, flags, all, related, ungated, inside, ready⟩ := exists_markAll each
  obtain ⟨head, others, isHead, relatedRest, rfl⟩ := List.forall₂_cons_right_iff.1 related
  have alikeOf {tree : Tree} (member : tree ∈ head :: others) :
      ∃ original ∈ first :: rest, tree.Alike original :=
    exists_of_mem_left related member
  have partOf {tree : Tree} (member : tree ∈ head :: others) :
      IsPartOf graph forest around tree := by
    obtain ⟨original, among, alike⟩ := alikeOf member
    exact (fits original among).part.alike alike
  have headed {tree : Tree} (member : tree ∈ head :: others) : tree.isHeadless = false := by
    obtain ⟨original, among, alike⟩ := alikeOf member
    exact alike.headless.trans (fits original among).not_headless
  have chainMarked := chain.congr (map_blocks_of_alike related)
  obtain ⟨gated, recordedHere, gates, regated, allGated⟩ := exists_gateAllButFirst checked
    chainMarked (fun _ => partOf) (fun _ => headed) ungated
  have relatedGated : List.Forall₂ Tree.Alike (head :: gated) (head :: others) := by
    refine .cons (.refl head) (regated.imp fun tree original regate => ?_)
    obtain ⟨gate, rfl⟩ := regate
    exact .gateOn original gate
  have blocks : (head :: gated).map Tree.blocks = (first :: rest).map Tree.blocks :=
    (map_blocks_of_alike relatedGated).trans (map_blocks_of_alike related)
  have alike : (Tree.sequence label (head :: gated)).Alike (.sequence label (first :: rest)) := by
    refine ⟨rfl, rfl, ?_, isHead.heads, isHead.headless, rfl⟩
    rw [Tree.blocks_sequence, Tree.blocks_sequence, List.flatMap_def, List.flatMap_def, blocks]
  rw [← @Tree.blocks_sequence label] at inside
  obtain ⟨insideAll, outwardAll⟩ := (inside.record recordedHere).own outward
  refine ⟨.sequence label (head :: gated), (flags.union (.ofRecorded recordedHere)).union own,
    by simp [Tree.mark, all, gates, made], alike, congrArg Notes.gateOn fresh, insideAll,
    outwardAll, fun recorded subset => ?_⟩
  simp only [Flags.union, Flags.ofRecorded, SortedSet.mem_union] at subset
  have readyHere := ready recorded fun coord known => subset coord (.inl (.inl known))
  refine .sequence (part.alike alike) ⟨ungated head (by simp),
    allGated recorded fun coord known => subset coord (.inl (.inr known))⟩
    (chain.congr blocks) ?_ ?_
  · intro tree member
    obtain ⟨marked, among, one⟩ := exists_of_mem_left relatedGated member
    obtain ⟨original, known, two⟩ := alikeOf among
    exact (one.flat.trans two.flat).trans (flat original known)
  · intro tree member
    rcases List.mem_cons.1 member with rfl | member
    · exact readyHere tree (by simp)
    · obtain ⟨original, among, gate, rfl⟩ := exists_of_mem_left regated member
      exact (readyHere original (List.mem_cons_of_mem _ among)).gateOn gate

/-- The node of a loop can be marked if its body can. -/
theorem markable_loop {label : Label} {body : Tree} {loop : Loop}
    (part : IsPartOf graph forest around (.loop label loop.entries body))
    (fresh : label.notes = .none) (nested : loop ∈ forest.inside around)
    (head : label.head = loop.head) (heads : body.heads = loop.entries)
    (whole : ∀ id, id ∈ body.blocks ↔ id ∈ loop.body)
    (each : Markable graph forest recursing (some loop) body) :
    Markable graph forest recursing around (.loop label loop.entries body) := by
  have isNested := Loop.mem_flattenAll_of_mem nested
  have known := owns.mem_all isNested
  obtain ⟨own, made, outward, goesOn⟩ := exists_ownFlags checked isOf owns part recursingIff
    fun _ => ⟨loop, nested, fun id here => (whole id).1 (by simpa using here)⟩
  obtain ⟨marked, flags, body', isMarked⟩ := each
  rw [Option.map_some, ← head] at body'
  have alike : (Tree.loop { label with
        notes := loopNotes label.jumps (around.map Loop.head) label.notes } loop.entries
      marked).Alike (.loop label loop.entries body) := by
    refine ⟨rfl, rfl, ?_, rfl, rfl, rfl⟩
    rw [Tree.blocks_loop, Tree.blocks_loop, isMarked.alike.blocks]
  have inside : (flags.union own).Inside graph forest around
      (Tree.loop label loop.entries body).blocks := by
    refine ⟨?_, ?_, ?_⟩
    · exact fun coord leaving => (SortedSet.mem_union.1 leaving).elim (isMarked.inside.sound coord)
        (outward.sound coord)
    · intro coord here away escapes
      rw [Tree.blocks_loop] at here
      by_cases direct : forest.innermost? coord.block = some loop
      · obtain ⟨inner, innermost, ⟨target, plain, outside⟩ | ⟨other, continues, differ⟩⟩ := escapes
        · cases direct.symm.trans innermost
          have both := isMarked.outward.exits loop rfl coord target here plain outside
          exact ⟨SortedSet.mem_union.2 (.inl both.1), SortedSet.mem_union.2 (.inl both.2)⟩
        · -- Only the code after the loop can go on with a loop around it.
          cases direct.symm.trans innermost
          obtain ⟨isOther, within⟩ := mem_body_of_continues isOf continues
          have notInside : other ∉ Loop.flattenAll (forest.inside around) := by
            intro deeper
            obtain ⟨outer, among, isIn⟩ := Loop.mem_flattenAll.1 deeper
            have isOuter := owns.mem_all (Loop.mem_flattenAll_of_mem among)
            have inOuter : coord.block ∈ outer.body := by
              rcases Loop.mem_flatten.1 isIn with rfl | deeper
              · exact within
              · exact (isOf.nested_body isOuter deeper within).1
            cases (isOf.split_inside owns).eq_of_mem among nested inOuter ((whole _).1 here)
            have notDeeper := not_nested_of_direct isOf (owns_some known)
              (isOf.innermost?_eq_some_iff.1 direct).2.2 within
            exact (Loop.mem_flatten.1 isIn).elim differ notDeeper
          have isSome : around ≠ .none := by
            rintro rfl
            exact notInside isOther
          have both := goesOn rfl isSome coord other (by simpa using here) continues notInside
          exact ⟨SortedSet.mem_union.2 (.inr both.1), SortedSet.mem_union.2 (.inr both.2)⟩
      · have both := isMarked.inside.escapes coord here direct escapes
        exact ⟨SortedSet.mem_union.2 (.inl both.1), SortedSet.mem_union.2 (.inl both.2)⟩
    · intro coord here away returns
      rw [Tree.blocks_loop] at here
      refine SortedSet.mem_union.2 (.inl ?_)
      by_cases direct : forest.innermost? coord.block = some loop
      · exact isMarked.outward.returns loop rfl coord here returns
      · exact isMarked.inside.returns coord here direct returns
  have outwardAll : (flags.union own).Outward graph forest around
      (Tree.loop label loop.entries body).blocks := by
    refine ⟨inside.sound, ?_, ?_⟩
    · intro outer isAround coord target here plain outside
      have both := outward.exits outer isAround coord target here plain outside
      exact ⟨SortedSet.mem_union.2 (.inr both.1), SortedSet.mem_union.2 (.inr both.2)⟩
    · intro outer isAround coord here returns
      exact SortedSet.mem_union.2 (.inr (outward.returns outer isAround coord here returns))
  refine ⟨_, flags.union own, by simp [Tree.mark, body', made], alike,
    congrArg Notes.gateOn fresh, inside, outwardAll, fun recorded subset => ?_⟩
  refine .loop (part.alike alike) ⟨rfl, rfl, rfl⟩ nested head
    (isMarked.alike.heads.trans heads) (fun id => isMarked.alike.blocks ▸ whole id)
    (isMarked.fits recorded fun coord member => subset coord (SortedSet.mem_union.2 (.inl member)))

/-- A merge can be marked if its alternatives can. -/
theorem markable_merge {label : Label} {alternatives : List Tree} {incoming : Incoming}
    (part : IsPartOf graph forest around (.merge label alternatives incoming))
    (fresh : label.notes = .none)
    (heads : List.Forall₂ (fun entry tree => tree.heads = .singleton entry)
      (Tree.headsOfAll alternatives).toList alternatives)
    (several : ∀ id ∈ Tree.headsOfAll alternatives,
      ∃ other ∈ Tree.headsOfAll alternatives, other ≠ id)
    (isEntry : ∀ id ∈ Tree.headsOfAll alternatives, id ∈ cutOf around)
    (incoming_iff : ∀ entry coords, incoming.get? entry = some coords ↔
      entry ∈ Tree.headsOfAll alternatives ∧ coords = .ofList (graph.inCoords entry))
    (leaves : ∀ tree ∈ alternatives, ∀ way, Leaves graph forest tree.blocks way →
      Leaves graph forest (Tree.merge label alternatives incoming).blocks way)
    (each : ∀ tree ∈ alternatives, Markable graph forest recursing around tree) :
    Markable graph forest recursing around (.merge label alternatives incoming) := by
  obtain ⟨own, made, outward, -⟩ := exists_ownFlags checked isOf owns part recursingIff
    (by simp [Tree.isLoop])
  obtain ⟨marked, flags, all, related, ungated, inside, ready⟩ := exists_markAll each
  have sameBlocks := map_blocks_of_alike related
  have sameHeads := headsOfAll_of_alike related
  have blocks (other : Label) : (Tree.merge other marked incoming).blocks =
      (Tree.merge label alternatives incoming).blocks := by
    rw [Tree.blocks_merge, Tree.blocks_merge, List.flatMap_def, List.flatMap_def, sameBlocks]
  have alike : (Tree.merge { label with
        notes := { label.notes with chooseBy := some incoming } } marked incoming).Alike
      (.merge label alternatives incoming) := by
    exact ⟨rfl, rfl, blocks _, sameHeads, anyHeadless_of_alike related, rfl⟩
  rw [← @Tree.blocks_merge label alternatives incoming] at inside
  obtain ⟨insideAll, outwardAll⟩ := (inside.record (.unionAll incoming.values)).own outward
  refine ⟨_, (flags.union (.ofRecorded (.unionAll incoming.values))).union own,
    by simp [Tree.mark, all, made], alike, congrArg Notes.gateOn fresh, insideAll, outwardAll,
    fun recorded subset => ?_⟩
  simp only [Flags.union, Flags.ofRecorded, SortedSet.mem_union] at subset
  refine .merge (part.alike alike) ⟨rfl, fun entry coords found coord member => ?_⟩ ?_ ?_ ?_ ?_ ?_
    (ready recorded fun coord known => subset coord (.inl (.inl known)))
  · refine subset coord (.inl (.inr (SortedSet.mem_unionAll.2 ⟨coords, ?_, member⟩)))
    exact SortedMap.mem_values_iff.2 ⟨entry, found⟩
  · rw [sameHeads]
    have mapped := (List.forall₂_map_right_iff (R := fun entry (heads : SortedSet BlockId) =>
      heads = .singleton entry) (f := Tree.heads)).2 heads
    rw [← map_heads_of_alike related] at mapped
    exact List.forall₂_map_right_iff.1 mapped
  · rw [sameHeads]
    exact several
  · rw [sameHeads]
    exact isEntry
  · rw [sameHeads]
    exact incoming_iff
  · intro tree member way leavesTree
    obtain ⟨original, among, same⟩ := exists_of_mem_left related member
    rw [blocks]
    exact leaves original among way (same.blocks ▸ leavesTree)

end Nodes

/-- A tree that fits a region is marked without a defect. -/
theorem exists_mark (checked : graph.Checked) (isOf : forest.IsOf graph) {recursing : CoordSet}
    (recursingIff : ∀ coord, coord ∈ recursing ↔ Recurses graph forest coord) {tree : Tree}
    (fits : Fits graph forest Bare around tree) :
    forest.Owns around → Markable graph forest recursing around tree := by
  induction fits with
  | jump part noted direct straight leaves =>
      exact fun owns => markable_jump checked isOf owns recursingIff part noted direct straight
        leaves
  | conditional part noted direct branching edges takenArm notTakenArm takenLeaves notTakenLeaves
      takenFits notTakenFits takenIh notTakenIh =>
      exact fun owns => markable_conditional checked isOf owns recursingIff part noted direct
        branching edges takenArm notTakenArm takenLeaves notTakenLeaves
        (fun tree same => takenIh tree same owns) (fun tree same => notTakenIh tree same owns)
  | sequence part noted chain flat fits ih =>
      exact fun owns => markable_sequence checked isOf owns recursingIff part noted chain flat fits
        fun tree member => ih tree member owns
  | loop part noted nested head heads whole fits ih =>
      exact fun owns => markable_loop checked isOf owns recursingIff part noted nested head heads
        whole (ih (owns_some (owns.mem_all (Loop.mem_flattenAll_of_mem nested))))
  | merge part noted heads several isEntry incoming_iff leaves fits ih =>
      exact fun owns => markable_merge checked isOf owns recursingIff part noted heads several
        isEntry incoming_iff leaves fun tree member => ih tree member owns

/-- The flags of a method say of each way out of a block what it does to the innermost loop around
the block, and record what leaves a loop. -/
structure Flags.AreOf (flags : Flags) (graph : BlockGraph) (forest : LoopForest) : Prop where
  recursing_iff : ∀ coord, coord ∈ flags.recursing ↔ Recurses graph forest coord
  leaving_iff : ∀ coord, coord ∈ flags.leaving ↔ Escapes graph forest coord
  escapes : ∀ coord, Escapes graph forest coord → coord ∈ flags.recorded
  returns : ∀ coord, forest.innermost? coord.block ≠ .none → graph.IsReturn coord →
    coord ∈ flags.recorded

/-- The marked tree of a graph: it fits, with the notes its flags ask for, and holds the graph's
blocks. -/
structure IsMarkedTree (graph : BlockGraph) (forest : LoopForest) (tree : Tree) (flags : Flags) :
    Prop where
  areOf : flags.AreOf graph forest
  fits : Fits graph forest (Noted graph forest flags.recorded) none tree
  whole : ∀ id, id ∈ tree.blocks ↔ id ∈ graph.ids
  entry_mem : graph.entry ∈ tree.heads

/-- The structured form of a graph is marked without a defect. -/
theorem Structured.IsOf.exists_marked (checked : graph.Checked) {found : Structured}
    (structured : found.IsOf graph) : ∃ tree flags,
      found.root.marked found.recursing = .ok (tree, flags) ∧
        IsMarkedTree graph found.forest tree flags := by
  have isOf := structured.isOf
  obtain ⟨tree, flags, made, isMarked⟩ :=
    exists_mark checked isOf structured.recursing_iff structured.fits owns_none
  have known {coord : Coord} {loop : Loop} (innermost : found.forest.innermost? coord.block =
      some loop) : coord.block ∈ found.root.blocks := by
    obtain ⟨isLoop, holds, -⟩ := isOf.innermost?_eq_some_iff.1 innermost
    exact (structured.whole _).2 (isOf.mem_ids isLoop holds)
  have escapes (coord : Coord) (leaves : Escapes graph found.forest coord) :
      coord ∈ flags.leaving ∧ coord ∈ flags.recorded := by
    obtain ⟨loop, innermost, -⟩ := id leaves
    exact isMarked.inside.escapes coord (known innermost) (by simp [innermost]) leaves
  refine ⟨tree, { flags with recursing := found.recursing }, ?_, ⟨?_, ?_, ?_, ?_⟩, ?_, ?_, ?_⟩
  · rw [Option.map_none] at made
    simp [Tree.marked, made]
  · exact structured.recursing_iff
  · exact fun coord => ⟨isMarked.inside.sound coord, fun leaves => (escapes coord leaves).1⟩
  · exact fun coord leaves => (escapes coord leaves).2
  · intro coord inLoop returns
    obtain ⟨loop, innermost⟩ := Option.ne_none_iff_exists'.1 inLoop
    exact isMarked.inside.returns coord (known innermost) inLoop returns
  · exact isMarked.fits _ fun coord member => member
  · exact fun id => isMarked.alike.blocks ▸ structured.whole id
  · exact isMarked.alike.heads ▸ structured.entry_mem

end Marking

end GotoFree
