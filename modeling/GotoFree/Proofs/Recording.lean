import GotoFree.Proofs.JumpSites
import GotoFree.Proofs.Waiting

/-!
# Flags are complete

Whatever the notes of a marked tree wait for is recorded (`IsFlagged.awaited`), and what is recorded
has a place where the tree jumps (`IsFlagged.recorded`): it leaves the part of the tree that asks
for it, or leads to one of several entries of a loop. So no flag is lost on the way to the code
(`BlockGraph.exists_marked_complete`).
-/

namespace GotoFree

open LoopForest

/-- The coordinates that the notes of a node wait for. -/
def Notes.awaited (notes : Notes) : CoordSet :=
  .unionAll (notes.gateOn.toList ++ notes.chooseBy.toList.flatMap SortedMap.values ++
    notes.recurseOn.toList ++ notes.returnOn.toList)

/-- A node waits for the coordinates of its gate, of its choices and of its exits. -/
theorem Notes.mem_awaited {notes : Notes} {coord : Coord} : coord ∈ notes.awaited ↔
    (∃ coords ∈ notes.gateOn, coord ∈ coords) ∨
      (∃ incoming ∈ notes.chooseBy, ∃ coords ∈ incoming.values, coord ∈ coords) ∨
      (∃ coords ∈ notes.recurseOn, coord ∈ coords) ∨
      ∃ coords ∈ notes.returnOn, coord ∈ coords := by
  simp only [Notes.awaited, SortedSet.mem_unionAll, List.mem_append, Option.mem_toList,
    List.mem_flatMap]
  constructor
  · rintro ⟨coords, ((gate | ⟨incoming, choose, among⟩) | recurse) | back, member⟩
    · exact .inl ⟨coords, gate, member⟩
    · exact .inr (.inl ⟨incoming, choose, coords, among, member⟩)
    · exact .inr (.inr (.inl ⟨coords, recurse, member⟩))
    · exact .inr (.inr (.inr ⟨coords, back, member⟩))
  · rintro (⟨coords, gate, member⟩ | ⟨incoming, choose, coords, among, member⟩ |
      ⟨coords, recurse, member⟩ | ⟨coords, back, member⟩)
    · exact ⟨coords, .inl (.inl (.inl gate)), member⟩
    · exact ⟨coords, .inl (.inl (.inr ⟨incoming, choose, among⟩)), member⟩
    · exact ⟨coords, .inl (.inr recurse), member⟩
    · exact ⟨coords, .inr back, member⟩

/-- An edge to one of several entries of a loop. -/
def EntersShared (graph : BlockGraph) (forest : LoopForest) (coord : Coord) : Prop :=
  ∃ loop ∈ forest.all, ∃ target ∈ loop.entries, graph.HasEdge coord target ∧
    ∃ other ∈ loop.entries, other ≠ target

/-! ## Places -/

namespace Tree

/-- The coordinates of the nodes and arms in an arm that jump. -/
def sitesInArm (arm : Arm) : List Coord := (nodesOfArm arm).flatMap ownSites

/-- The jumps of a conditional are those of its arms, and those in them. -/
@[simp] theorem jumpSites_conditional {label : Label} {taken notTaken : Arm} :
    (conditional label taken notTaken).jumpSites = taken.site?.toList ++ notTaken.site?.toList ++
      (sitesInArm taken ++ sitesInArm notTaken) := by
  simp [jumpSites, nodes, ownSites, sitesInArm]

/-- The jumps of some trees are those of their nodes. -/
theorem flatMap_nodesOfAll (trees : List Tree) :
    (nodesOfAll trees).flatMap ownSites = trees.flatMap jumpSites := by
  rw [nodesOfAll_eq, List.flatMap_assoc]
  rfl

@[simp] theorem jumpSites_sequence {label : Label} {elems : List Tree} :
    (sequence label elems).jumpSites = elems.flatMap jumpSites := by
  simp [jumpSites, nodes, ownSites, ← flatMap_nodesOfAll]

@[simp] theorem jumpSites_loop {label : Label} {entries : SortedSet BlockId} {body : Tree} :
    (loop label entries body).jumpSites = body.jumpSites := by
  simp [jumpSites, nodes, ownSites]

@[simp] theorem jumpSites_merge {label : Label} {alternatives : List Tree} {incoming : Incoming} :
    (merge label alternatives incoming).jumpSites = alternatives.flatMap jumpSites := by
  simp [jumpSites, nodes, ownSites, ← flatMap_nodesOfAll]

@[simp] theorem jumpSites_gateOn {tree : Tree} {gate : Option CoordSet} :
    (tree.gateOn gate).jumpSites = tree.jumpSites := by
  cases tree with
  | jump | conditional => simp [gateOn, annotate, relabel, jumpSites, nodes, ownSites]
  | sequence | loop | merge => simp [gateOn, annotate, relabel]

/-- A gate changes the node it is put on and no node in it. -/
theorem mem_nodes_gateOn {tree node : Tree} {gate : Option CoordSet}
    (member : node ∈ (tree.gateOn gate).nodes) : node = tree.gateOn gate ∨ node ∈ tree.nodes := by
  cases tree <;> simp only [gateOn, annotate, relabel, nodes, List.mem_cons, List.mem_append,
    List.cons_append] at member ⊢ <;> tauto

end Tree

/-! ## Gates -/

/-- A tree as it was before, or with a gate that waits for coordinates of a set. -/
def Tree.GatedIn (recorded : CoordSet) (after before : Tree) : Prop :=
  after = before ∨
    ∃ coords, after = before.gateOn (some coords) ∧ ∀ coord ∈ coords, coord ∈ recorded

namespace Tree.GatedIn

variable {recorded : CoordSet} {after before : Tree}

/-- What is gated with recorded coordinates is so with more of them. -/
theorem mono {more : CoordSet} (gated : GatedIn recorded after before)
    (subset : ∀ coord ∈ recorded, coord ∈ more) : GatedIn more after before := by
  rcases gated with same | ⟨coords, same, known⟩
  · exact .inl same
  · exact .inr ⟨coords, same, fun coord member => subset coord (known coord member)⟩

/-- Gates leave the jumps of a tree as they are. -/
theorem jumpSites_eq (gated : GatedIn recorded after before) :
    after.jumpSites = before.jumpSites := by
  rcases gated with rfl | ⟨coords, rfl, -⟩
  · rfl
  · exact Tree.jumpSites_gateOn

/-- The notes of a gated tree wait for what its gate waits for and what they waited for before. -/
theorem awaited (gated : GatedIn recorded after before) {node : Tree}
    (member : node ∈ after.nodes) {coord : Coord} (waits : coord ∈ node.notes.awaited) :
    coord ∈ recorded ∨ ∃ node ∈ before.nodes, coord ∈ node.notes.awaited := by
  rcases gated with rfl | ⟨coords, rfl, known⟩
  · exact .inr ⟨node, member, waits⟩
  · rcases Tree.mem_nodes_gateOn member with rfl | inside
    · rw [Tree.notes_gateOn, Notes.mem_awaited] at waits
      rcases waits with ⟨_, ⟨⟩, here⟩ | others
      · exact .inl (known coord here)
      · exact .inr ⟨before, before.mem_nodes_self, Notes.mem_awaited.2 (.inr others)⟩
    · exact .inr ⟨node, inside, waits⟩

end Tree.GatedIn

/-- A gate waits for recorded coordinates, and only flow towards it is recorded for it. -/
theorem gateElements_spec {elems gated : List Tree} {pending : Pending} {recorded : CoordSet}
    (made : gateElements pending elems = .ok (gated, recorded)) :
    List.Forall₂ (Tree.GatedIn recorded) gated elems ∧
      ∀ coord ∈ recorded, (∃ target, Pending.Has pending coord target) ∨
        ∃ tree ∈ elems, ∃ target, (coord, target) ∈ tree.jumps.flow := by
  induction elems generalizing pending gated recorded with
  | nil =>
      cases made
      exact ⟨.nil, by simp⟩
  | cons tree rest ih =>
      unfold gateElements at made
      split at made
      · cases made
      · dsimp only at made
        split at made
        · cases made
        · obtain ⟨⟨others, later⟩, gates, made⟩ := bind_eq_ok_iff.1 made
          obtain ⟨related, sources⟩ := ih gates
          obtain ⟨rfl, rfl⟩ := Prod.mk.inj (Except.ok.inj made)
          refine ⟨.cons ?_ (related.imp fun after before gate => ?_), fun coord member => ?_⟩
          · split
            · exact .inl rfl
            · next mixed =>
              refine .inr ⟨_, rfl, fun coord reaches => ?_⟩
              obtain ⟨target, -, has⟩ := Pending.mem_reaching_iff.1 reaches
              have onWay := Pending.mem_coords_iff.2 ⟨target, has⟩
              simp [onWay]
          · exact gate.mono fun coord known => SortedSet.mem_union.2 (.inr known)
          · rcases SortedSet.mem_union.1 member with here | later
            · rcases SortedSet.mem_union.1 here with gate | merged
              · split at gate
                · cases gate
                · exact .inl (Pending.mem_coords_iff.1 gate)
              · split at merged
                · obtain ⟨target, -, has⟩ := Pending.mem_reaching_iff.1 merged
                  exact .inl ⟨target, has⟩
                · cases merged
            · rcases sources coord later with ⟨target, has⟩ | ⟨other, among, flows⟩
              · rcases Pending.has_addFlow.1 has with kept | flows
                · exact .inl ⟨target, (Pending.has_foldl_erase.1 kept).1⟩
                · exact .inr ⟨tree, List.mem_cons_self, target, flows⟩
              · exact .inr ⟨other, List.mem_cons_of_mem _ among, flows⟩

/-- All elements but the first get gates, and what these wait for is recorded. -/
theorem gateAllButFirst_spec {elems gated : List Tree} {recorded : CoordSet}
    (made : gateAllButFirst elems = .ok (gated, recorded)) :
    List.Forall₂ (Tree.GatedIn recorded) gated elems ∧
      ∀ coord ∈ recorded, ∃ tree ∈ elems, ∃ target, (coord, target) ∈ tree.jumps.flow := by
  cases elems with
  | nil =>
      cases made
      exact ⟨.nil, by simp⟩
  | cons first rest =>
      obtain ⟨⟨others, later⟩, gates, made⟩ := bind_eq_ok_iff.1 made
      obtain ⟨rfl, rfl⟩ := Prod.mk.inj (Except.ok.inj made)
      obtain ⟨related, sources⟩ := gateElements_spec gates
      refine ⟨.cons (.inl rfl) related, fun coord member => ?_⟩
      rcases sources coord member with ⟨target, has⟩ | ⟨tree, among, flows⟩
      · refine ⟨first, List.mem_cons_self, target, ?_⟩
        exact (Pending.has_addFlow.1 has).resolve_left Pending.not_has_empty
      · exact ⟨tree, List.mem_cons_of_mem _ among, flows⟩

/-! ## One node -/

/-- The own flags of a node record ways out of it. -/
theorem recorded_of_ownFlags {recursing : CoordSet} {around : Option BlockId} {tree : Tree}
    {own : Flags} (made : ownFlags recursing around tree = .ok own) :
    ∀ coord ∈ own.recorded, coord ∈ tree.jumps.coords := by
  intro coord member
  rw [Jumps.mem_coords_iff]
  cases around with
  | none =>
      simp only [ownFlags] at made
      split at made
      · cases made
      · cases made
        cases member
  | some head =>
      simp only [ownFlags] at made
      split at made
      · cases made
      · cases made
        simp only [SortedSet.mem_union, SortedSet.mem_ofList, Jumps.mem_breakCoords] at member
        rcases member with returned | exits | continues
        · exact .inr (.inr (.inr returned))
        · exact .inr (.inl exits)
        · split at continues
          · obtain ⟨⟨_, head⟩, among, rfl⟩ := List.mem_map.1 continues
            exact .inr (.inr (.inl ⟨head, among⟩))
          · cases continues

/-! ## Marking -/

/-- What a part of a graph is marked as: it jumps where it did, what is recorded has its place in
the part or leads to one of several entries of a loop, and the notes wait for nothing else than what
the method records. -/
structure IsFlagged (graph : BlockGraph) (forest : LoopForest) (all : Flags) (tree marked : Tree)
    (flags : Flags) : Prop where
  jumps : marked.jumps = tree.jumps
  jumpSites : marked.jumpSites = tree.jumpSites
  recorded : ∀ coord ∈ flags.recorded, coord ∈ tree.jumpSites ∨ EntersShared graph forest coord
  awaited : (∀ coord ∈ flags.recorded, coord ∈ all.recorded) →
    ∀ node ∈ marked.nodes, ∀ coord ∈ node.notes.awaited, coord ∈ all.recorded

section Marked

variable {graph : BlockGraph} {forest : LoopForest} {around : Option Loop} {all : Flags}

/-- What the trees of a list are marked as. -/
theorem isFlagged_all {recursing : CoordSet} {outer : Option BlockId} {trees marked : List Tree}
    {flags : Flags} (each : ∀ tree ∈ trees, ∀ marked flags,
      tree.mark recursing outer = .ok (marked, flags) →
        IsFlagged graph forest all tree marked flags)
    (made : Tree.markAll recursing outer trees = .ok (marked, flags)) :
    List.Forall₂ (fun after before => ∃ own, IsFlagged graph forest all before after own ∧
        ∀ coord ∈ own.recorded, coord ∈ flags.recorded) marked trees ∧
      ∀ coord ∈ flags.recorded, coord ∈ trees.flatMap Tree.jumpSites ∨
        EntersShared graph forest coord := by
  induction trees generalizing marked flags with
  | nil =>
      cases made
      exact ⟨.nil, by simp [Flags.none]⟩
  | cons tree rest ih =>
      obtain ⟨⟨first, own⟩, here, made⟩ := bind_eq_ok_iff.1 made
      obtain ⟨⟨others, more⟩, later, made⟩ := bind_eq_ok_iff.1 made
      obtain ⟨rfl, rfl⟩ := Prod.mk.inj (Except.ok.inj made)
      have flagged := each tree List.mem_cons_self first own here
      obtain ⟨related, sources⟩ :=
        ih (fun other among => each other (List.mem_cons_of_mem _ among)) later
      refine ⟨.cons ⟨own, flagged, fun coord member => SortedSet.mem_union.2 (.inl member)⟩
        (related.imp fun after before kept => ?_), fun coord member => ?_⟩
      · obtain ⟨flags, same, kept⟩ := kept
        exact ⟨flags, same, fun coord member => SortedSet.mem_union.2 (.inr (kept coord member))⟩
      · rw [List.flatMap_cons, List.mem_append]
        rcases SortedSet.mem_union.1 member with mine | theirs
        · exact (flagged.recorded coord mine).imp_left .inl
        · exact (sources coord theirs).imp_left .inr

/-- Trees with the same jumps have the same ones together. -/
theorem flatMap_jumpSites_congr {marked trees : List Tree}
    (same : List.Forall₂ (fun after before => after.jumpSites = before.jumpSites) marked trees) :
    marked.flatMap Tree.jumpSites = trees.flatMap Tree.jumpSites := by
  induction same with
  | nil => rfl
  | cons here _ ih => rw [List.flatMap_cons, List.flatMap_cons, here, ih]

/-- What an arm is marked as. -/
theorem isFlagged_arm {recursing : CoordSet} {outer : Option BlockId} {arm after : Arm}
    {flags : Flags} (each : ∀ tree, arm = .nested tree → ∀ marked flags,
      tree.mark recursing outer = .ok (marked, flags) →
        IsFlagged graph forest all tree marked flags)
    (made : Tree.markArm recursing outer arm = .ok (after, flags)) :
    after.site? = arm.site? ∧ Tree.sitesInArm after = Tree.sitesInArm arm ∧
      (∀ coord ∈ flags.recorded, coord ∈ Tree.sitesInArm arm ∨ EntersShared graph forest coord) ∧
      ((∀ coord ∈ flags.recorded, coord ∈ all.recorded) →
        ∀ node ∈ Tree.nodesOfArm after, ∀ coord ∈ node.notes.awaited, coord ∈ all.recorded) := by
  cases arm with
  | jump coord jumps =>
      cases made
      exact ⟨rfl, rfl, by simp [Flags.ofLeaving, Flags.none], by simp [Tree.nodesOfArm]⟩
  | nested tree =>
      obtain ⟨⟨marked, flags⟩, here, made⟩ := bind_eq_ok_iff.1 made
      obtain ⟨rfl, rfl⟩ := Prod.mk.inj (Except.ok.inj made)
      have flagged := each tree rfl marked flags here
      exact ⟨rfl, flagged.jumpSites, flagged.recorded, flagged.awaited⟩

section Nodes

variable {NotedAs : Option Loop → Tree → Prop} {tree : Tree} (checked : graph.Checked)
  (owns : forest.Owns around)

include checked owns

/-- A way out of a part has its place there. -/
theorem Fits.mem_jumpSites_of_coords (fits : Fits graph forest NotedAs around tree) {coord : Coord}
    (member : coord ∈ tree.jumps.coords) : coord ∈ tree.jumpSites := by
  obtain ⟨leaves, way⟩ := fits.part.ways.way_of_mem_coords member
  exact fits.mem_jumpSites_of_leaves checked owns way leaves

omit checked owns in
/-- A tree that has not been marked waits for nothing. -/
theorem Fits.not_awaited (fits : Fits graph forest Bare around tree) {coord : Coord} :
    coord ∉ tree.notes.awaited := by
  rw [show tree.notes = Notes.none from fits.noted]
  simp [Notes.awaited, Notes.none]

/-- The node of a block that does not branch is flagged. -/
theorem isFlagged_jump {recursing : CoordSet} {label : Label} {coord : Coord} {marked : Tree}
    {flags : Flags} (fits : Fits graph forest Bare around (.jump label coord))
    (made : (Tree.jump label coord).mark recursing (around.map Loop.head) = .ok (marked, flags)) :
    IsFlagged graph forest all (.jump label coord) marked flags := by
  obtain ⟨own, mine, made⟩ := bind_eq_ok_iff.1 made
  obtain ⟨rfl, rfl⟩ := Prod.mk.inj (Except.ok.inj made)
  refine ⟨rfl, rfl, fun coord member => .inl ?_, fun _ node member coord waits => ?_⟩
  · exact fits.mem_jumpSites_of_coords checked owns (recorded_of_ownFlags mine coord member)
  · exact absurd (List.mem_singleton.1 member ▸ waits) fits.not_awaited

/-- A conditional is flagged if its arms are. -/
theorem isFlagged_conditional {recursing : CoordSet} {label : Label} {taken notTaken : Arm}
    {marked : Tree} {flags : Flags}
    (fits : Fits graph forest Bare around (.conditional label taken notTaken))
    (eachTaken : ∀ tree, taken = .nested tree → ∀ marked flags,
      tree.mark recursing (around.map Loop.head) = .ok (marked, flags) →
        IsFlagged graph forest all tree marked flags)
    (eachNotTaken : ∀ tree, notTaken = .nested tree → ∀ marked flags,
      tree.mark recursing (around.map Loop.head) = .ok (marked, flags) →
        IsFlagged graph forest all tree marked flags)
    (made : (Tree.conditional label taken notTaken).mark recursing (around.map Loop.head) =
      .ok (marked, flags)) :
    IsFlagged graph forest all (.conditional label taken notTaken) marked flags := by
  obtain ⟨⟨left, leftFlags⟩, leftMade, made⟩ := bind_eq_ok_iff.1 made
  obtain ⟨⟨right, rightFlags⟩, rightMade, made⟩ := bind_eq_ok_iff.1 made
  obtain ⟨own, mine, made⟩ := bind_eq_ok_iff.1 made
  obtain ⟨rfl, rfl⟩ := Prod.mk.inj (Except.ok.inj made)
  obtain ⟨leftSite, leftSites, leftRecorded, leftAwaited⟩ := isFlagged_arm eachTaken leftMade
  obtain ⟨rightSite, rightSites, rightRecorded, rightAwaited⟩ :=
    isFlagged_arm eachNotTaken rightMade
  refine ⟨rfl, ?_, fun coord member => ?_, fun subset node member coord waits => ?_⟩
  · rw [Tree.jumpSites_conditional, Tree.jumpSites_conditional, leftSite, leftSites, rightSite,
      rightSites]
  · rcases SortedSet.mem_union.1 member with inner | here
    · rw [Tree.jumpSites_conditional]
      rcases SortedSet.mem_union.1 inner with inLeft | inRight
      · exact (leftRecorded coord inLeft).imp_left fun site => by simp [site]
      · exact (rightRecorded coord inRight).imp_left fun site => by simp [site]
    · exact .inl (fits.mem_jumpSites_of_coords checked owns (recorded_of_ownFlags mine coord here))
  · simp only [Flags.union, SortedSet.mem_union] at subset
    simp only [Tree.nodes, List.cons_append, List.mem_cons, List.mem_append] at member
    rcases member with rfl | inLeft | inRight
    · exact absurd waits fits.not_awaited
    · exact leftAwaited (fun coord known => subset coord (.inl (.inl known))) node inLeft coord
        waits
    · exact rightAwaited (fun coord known => subset coord (.inl (.inr known))) node inRight coord
        waits

/-- A sequence is flagged if its elements are. -/
theorem isFlagged_sequence {recursing : CoordSet} {label : Label} {elems : List Tree}
    {marked : Tree} {flags : Flags} (fits : Fits graph forest Bare around (.sequence label elems))
    (fitsAll : ∀ tree ∈ elems, Fits graph forest Bare around tree)
    (each : ∀ tree ∈ elems, ∀ marked flags,
      tree.mark recursing (around.map Loop.head) = .ok (marked, flags) →
        IsFlagged graph forest all tree marked flags)
    (made : (Tree.sequence label elems).mark recursing (around.map Loop.head) =
      .ok (marked, flags)) :
    IsFlagged graph forest all (.sequence label elems) marked flags := by
  obtain ⟨⟨ungated, inner⟩, elemsMade, made⟩ := bind_eq_ok_iff.1 made
  obtain ⟨⟨gated, recorded⟩, gates, made⟩ := bind_eq_ok_iff.1 made
  obtain ⟨own, mine, made⟩ := bind_eq_ok_iff.1 made
  obtain ⟨rfl, rfl⟩ := Prod.mk.inj (Except.ok.inj made)
  obtain ⟨related, innerRecorded⟩ := isFlagged_all each elemsMade
  obtain ⟨regated, sources⟩ := gateAllButFirst_spec gates
  refine ⟨rfl, ?_, fun coord member => ?_, fun subset node member coord waits => ?_⟩
  · rw [Tree.jumpSites_sequence, Tree.jumpSites_sequence,
      flatMap_jumpSites_congr (regated.imp fun after before gate => gate.jumpSites_eq),
      flatMap_jumpSites_congr (related.imp fun after before ⟨_, flagged, _⟩ => flagged.jumpSites)]
  · rcases SortedSet.mem_union.1 member with inside | here
    · rcases SortedSet.mem_union.1 inside with kept | flows
      · exact Tree.jumpSites_sequence ▸ innerRecorded coord kept
      · -- What is recorded for a gate flows out of an element.
        obtain ⟨after, among, target, flow⟩ := sources coord flows
        obtain ⟨tree, known, _, flagged, -⟩ := exists_of_mem_left related among
        have site := (fitsAll tree known).mem_jumpSites_of_coords checked owns
          (Jumps.mem_coords_iff.2 (.inl ⟨target, flagged.jumps ▸ flow⟩))
        rw [Tree.jumpSites_sequence]
        exact .inl (List.mem_flatMap.2 ⟨tree, known, site⟩)
    · exact .inl (fits.mem_jumpSites_of_coords checked owns (recorded_of_ownFlags mine coord here))
  · simp only [Flags.union, Flags.ofRecorded, SortedSet.mem_union] at subset
    rw [Tree.nodes, List.mem_cons, Tree.nodesOfAll_eq] at member
    rcases member with rfl | member
    · exact absurd waits fits.not_awaited
    · obtain ⟨elem, among, member⟩ := List.mem_flatMap.1 member
      obtain ⟨before, known, gate⟩ := exists_of_mem_left regated among
      obtain ⟨tree, -, _, flagged, kept⟩ := exists_of_mem_left related known
      have fine := flagged.awaited fun coord known => subset coord (.inl (.inl (kept coord known)))
      rcases gate.awaited member waits with stored | ⟨inside, among, waits⟩
      · exact subset coord (.inl (.inr stored))
      · exact fine inside among coord waits

/-- A merge is flagged if its alternatives are. -/
theorem isFlagged_merge {recursing : CoordSet} {label : Label} {alternatives : List Tree}
    {incoming : Incoming} {marked : Tree} {flags : Flags}
    (fits : Fits graph forest Bare around (.merge label alternatives incoming))
    (entering : ∀ coords ∈ incoming.values, ∀ coord ∈ coords, EntersShared graph forest coord)
    (each : ∀ tree ∈ alternatives, ∀ marked flags,
      tree.mark recursing (around.map Loop.head) = .ok (marked, flags) →
        IsFlagged graph forest all tree marked flags)
    (made : (Tree.merge label alternatives incoming).mark recursing (around.map Loop.head) =
      .ok (marked, flags)) :
    IsFlagged graph forest all (.merge label alternatives incoming) marked flags := by
  obtain ⟨⟨trees, inner⟩, treesMade, made⟩ := bind_eq_ok_iff.1 made
  obtain ⟨own, mine, made⟩ := bind_eq_ok_iff.1 made
  obtain ⟨rfl, rfl⟩ := Prod.mk.inj (Except.ok.inj made)
  obtain ⟨related, innerRecorded⟩ := isFlagged_all each treesMade
  refine ⟨rfl, ?_, fun coord member => ?_, fun subset node member coord waits => ?_⟩
  · rw [Tree.jumpSites_merge, Tree.jumpSites_merge, flatMap_jumpSites_congr
      (related.imp fun after before ⟨_, flagged, _⟩ => flagged.jumpSites)]
  · rcases SortedSet.mem_union.1 member with inside | here
    · rcases SortedSet.mem_union.1 inside with kept | enters
      · exact Tree.jumpSites_merge ▸ innerRecorded coord kept
      · obtain ⟨coords, among, listed⟩ := SortedSet.mem_unionAll.1 enters
        exact .inr (entering coords among coord listed)
    · exact .inl (fits.mem_jumpSites_of_coords checked owns (recorded_of_ownFlags mine coord here))
  · simp only [Flags.union, Flags.ofRecorded, SortedSet.mem_union] at subset
    rw [Tree.nodes, List.mem_cons, Tree.nodesOfAll_eq] at member
    rcases member with rfl | member
    · have fresh : label.notes = .none := fits.noted
      simp only [Tree.notes, Tree.label, fresh, Notes.mem_awaited, Notes.none] at waits
      rcases waits with ⟨_, ⟨⟩, -⟩ | ⟨_, ⟨⟩, coords, among, listed⟩ | ⟨_, ⟨⟩, -⟩ | ⟨_, ⟨⟩, -⟩
      exact subset coord (.inl (.inr (SortedSet.mem_unionAll.2 ⟨coords, among, listed⟩)))
    · obtain ⟨elem, among, member⟩ := List.mem_flatMap.1 member
      obtain ⟨tree, -, _, flagged, kept⟩ := exists_of_mem_left related among
      exact flagged.awaited (fun coord known => subset coord (.inl (.inl (kept coord known)))) node
        member coord waits

/-- A loop is flagged if its body is. -/
theorem isFlagged_loop (isOf : forest.IsOf graph) (areOf : all.AreOf graph forest)
    {recursing : CoordSet} {label : Label} {body : Tree} {loop : Loop} {marked : Tree}
    {flags : Flags} (fits : Fits graph forest Bare around (.loop label loop.entries body))
    (nested : loop ∈ forest.inside around) (head : label.head = loop.head)
    (whole : ∀ id, id ∈ body.blocks ↔ id ∈ loop.body)
    (each : ∀ marked flags, body.mark recursing ((some loop).map Loop.head) = .ok (marked, flags) →
      IsFlagged graph forest all body marked flags)
    (made : (Tree.loop label loop.entries body).mark recursing (around.map Loop.head) =
      .ok (marked, flags)) :
    IsFlagged graph forest all (.loop label loop.entries body) marked flags := by
  obtain ⟨⟨inside, inner⟩, bodyMade, made⟩ := bind_eq_ok_iff.1 made
  obtain ⟨own, mine, made⟩ := bind_eq_ok_iff.1 made
  obtain ⟨rfl, rfl⟩ := Prod.mk.inj (Except.ok.inj made)
  rw [head] at bodyMade
  have flagged := each inside inner bodyMade
  refine ⟨rfl, ?_, fun coord member => ?_, fun subset node member coord waits => ?_⟩
  · rw [Tree.jumpSites_loop, Tree.jumpSites_loop, flagged.jumpSites]
  · rcases SortedSet.mem_union.1 member with kept | here
    · rw [Tree.jumpSites_loop]
      exact flagged.recorded coord kept
    · exact .inl (fits.mem_jumpSites_of_coords checked owns (recorded_of_ownFlags mine coord here))
  · simp only [Flags.union, SortedSet.mem_union] at subset
    rw [Tree.nodes, List.mem_cons] at member
    rcases member with rfl | member
    · have fresh : label.notes = .none := fits.noted
      simp only [Tree.notes, Tree.label, loopNotes, fresh, Notes.mem_awaited, Notes.none] at waits
      refine recorded_of_exit isOf owns areOf fits.part nested whole ?_
      rcases waits with ⟨_, ⟨⟩, -⟩ | ⟨_, ⟨⟩, -⟩ | ⟨_, ⟨⟩, recurses⟩ | ⟨_, ⟨⟩, leaves⟩
      · exact .inl recurses
      · exact .inr leaves
    · exact flagged.awaited (fun coord known => subset coord (.inl known)) node member coord waits

end Nodes

/-- What a tree of a region is marked as. -/
theorem Fits.isFlagged (checked : graph.Checked) (isOf : forest.IsOf graph)
    (areOf : all.AreOf graph forest) {recursing : CoordSet} {tree marked : Tree} {flags : Flags}
    (fits : Fits graph forest Bare around tree) (owns : forest.Owns around)
    (made : tree.mark recursing (around.map Loop.head) = .ok (marked, flags)) :
    IsFlagged graph forest all tree marked flags := by
  induction fits generalizing marked flags with
  | jump part noted direct straight leaves =>
      exact isFlagged_jump checked owns (.jump part noted direct straight leaves) made
  | conditional part noted direct branching edges takenArm notTakenArm takenLeaves notTakenLeaves
      takenFits notTakenFits takenIh notTakenIh =>
      exact isFlagged_conditional checked owns (.conditional part noted direct branching edges
        takenArm notTakenArm takenLeaves notTakenLeaves takenFits notTakenFits)
        (fun tree same _ _ => takenIh tree same owns)
        (fun tree same _ _ => notTakenIh tree same owns) made
  | sequence part noted chain flat fits ih =>
      exact isFlagged_sequence checked owns (.sequence part noted chain flat fits) fits
        (fun tree member _ _ => ih tree member owns) made
  | loop part noted nested head heads whole fits ih =>
      exact isFlagged_loop checked owns isOf areOf (.loop part noted nested head heads whole fits)
        nested head whole
        (fun _ _ => ih (owns_some (owns.mem_all (Loop.mem_flattenAll_of_mem nested)))) made
  | @merge around label alternatives incoming part noted heads several isEntry incoming_iff leaves
      fits ih =>
      refine isFlagged_merge checked owns
        (.merge part noted heads several isEntry incoming_iff leaves fits) ?_
        (fun tree member _ _ => ih tree member owns) made
      -- The alternatives start with entries of the loop whose body the region is.
      intro coords among coord member
      obtain ⟨entry, found⟩ := SortedMap.mem_values_iff.1 among
      obtain ⟨isHead, rfl⟩ := (incoming_iff entry coords).1 found
      have edge := checked.mem_inCoords_iff.1 (SortedSet.mem_ofList.1 member)
      obtain ⟨other, isOther, differ⟩ := several entry isHead
      cases around with
      | none => exact absurd (isEntry entry isHead) SortedSet.not_mem_empty
      | some loop =>
          exact ⟨loop, owns loop rfl, entry, isEntry entry isHead, edge, other,
            isEntry other isOther, differ⟩

end Marked

/-! ## A whole method -/

/-- The flags of a method are complete: what a note waits for is recorded, and each flag has exactly
one place where the method jumps. -/
structure Flags.Complete (flags : Flags) (forest : LoopForest) (tree : Tree) : Prop where
  awaited : ∀ node ∈ tree.nodes, ∀ coord ∈ node.notes.awaited, coord ∈ flags.recorded
  /-- No jump both leaves its loop and runs it again. -/
  disjoint : ∀ coord ∈ flags.recursing, coord ∉ flags.leaving
  in_loop : ∀ coord, coord ∈ flags.recursing ∨ coord ∈ flags.leaving →
    ∃ loop ∈ forest.all, coord.block ∈ loop.body
  /-- A flag is that of one node or arm that jumps, and of no arm that holds its target. -/
  once : ∀ coord, flags.needsCode coord = true →
    tree.jumpSites.count coord = 1 ∧ coord ∉ tree.inlinedWays

section Method

variable {graph : BlockGraph} {forest : LoopForest} {tree : Tree} {flags : Flags} {coord : Coord}
  (checked : graph.Checked) (isOf : forest.IsOf graph)
  (isMarked : IsMarkedTree graph forest tree flags)

include checked isOf isMarked

omit isOf in
/-- A way out along which no arm goes on has its place in the marked tree. -/
theorem IsMarkedTree.mem_jumpSites (way : graph.IsWay coord) (known : coord.block ∈ graph.ids)
    (free : ∀ region target inner, ¬ Inlines graph forest (Noted graph forest flags.recorded) region
      tree coord target inner) : coord ∈ tree.jumpSites := by
  rcases isMarked.fits.mem_jumpSites_or checked owns_none way ((isMarked.whole _).2 known) with
    here | ⟨region, target, inner, inlines⟩
  · exact here
  · exact absurd inlines (free region target inner)

/-- A jump that escapes from a loop stands in the marked tree. -/
theorem IsMarkedTree.mem_jumpSites_of_escapes (escapes : Escapes graph forest coord) :
    coord ∈ tree.jumpSites := by
  refine isMarked.mem_jumpSites checked ?_ ?_ fun _ _ _ inlines =>
    inlines.not_escapes checked escapes
  · obtain ⟨_, -, ⟨_, plain, -⟩ | ⟨_, continues, -⟩⟩ := escapes
    · exact plain.isWay
    · exact continues.isWay
  · obtain ⟨loop, innermost, -⟩ := escapes
    obtain ⟨known, holds, -⟩ := isOf.innermost?_eq_some_iff.1 innermost
    exact isOf.mem_ids known holds

/-- A jump that runs a loop again stands in the marked tree. -/
theorem IsMarkedTree.mem_jumpSites_of_recurses (recurses : Recurses graph forest coord) :
    coord ∈ tree.jumpSites := by
  obtain ⟨loop, continues, -⟩ := id recurses
  obtain ⟨known, holds⟩ := mem_body_of_continues isOf continues
  exact isMarked.mem_jumpSites checked continues.isWay (isOf.mem_ids known holds)
    fun _ _ _ inlines => inlines.not_recurses checked recurses

/-- A jump to an entry that is shared stands in the marked tree. -/
theorem IsMarkedTree.mem_jumpSites_of_entersShared (enters : EntersShared graph forest coord) :
    coord ∈ tree.jumpSites := by
  obtain ⟨loop, known, entry, isEntry, edge, other, isOther, differ⟩ := enters
  refine isMarked.mem_jumpSites checked (.inl ⟨entry, edge⟩) (BlockGraph.Checked.source_mem edge)
    fun _ target _ inlines => differ ?_
  cases checked.target_unique inlines.plain.1 edge
  exact inlines.eq_of_entry isOf known isEntry other isOther

/-- The flags of a marked tree are complete, if all that is recorded has a place or leads to one of
several entries of a loop. -/
theorem IsMarkedTree.complete
    (awaited : ∀ node ∈ tree.nodes, ∀ coord ∈ node.notes.awaited, coord ∈ flags.recorded)
    (recorded : ∀ coord ∈ flags.recorded,
      coord ∈ tree.jumpSites ∨ EntersShared graph forest coord) :
    flags.Complete forest tree := by
  have areOf := isMarked.areOf
  have inLoop {loop : Loop} {id : BlockId} (innermost : forest.innermost? id = some loop) :
      ∃ loop ∈ forest.all, id ∈ loop.body := by
    obtain ⟨known, holds, -⟩ := isOf.innermost?_eq_some_iff.1 innermost
    exact ⟨loop, known, holds⟩
  refine ⟨awaited, fun coord recurses leaves => ?_, ?_, fun coord needed => ?_⟩
  · exact ((areOf.recursing_iff coord).1 recurses).not_escapes checked
      ((areOf.leaving_iff coord).1 leaves)
  · rintro coord (recurses | leaves)
    · obtain ⟨loop, -, innermost⟩ := (areOf.recursing_iff coord).1 recurses
      exact inLoop innermost
    · obtain ⟨loop, innermost, -⟩ := (areOf.leaving_iff coord).1 leaves
      exact inLoop innermost
  · have site : coord ∈ tree.jumpSites := by
      simp only [Flags.needsCode, Bool.or_eq_true, decide_eq_true_eq] at needed
      rcases needed with (stored | leaves) | recurses
      · exact (recorded coord stored).elim id (isMarked.mem_jumpSites_of_entersShared checked isOf)
      · exact isMarked.mem_jumpSites_of_escapes checked isOf ((areOf.leaving_iff coord).1 leaves)
      · exact isMarked.mem_jumpSites_of_recurses checked isOf
          ((areOf.recursing_iff coord).1 recurses)
    obtain ⟨distinct, -, apart⟩ := List.nodup_append'.1 (isMarked.fits.nodup_sites owns_none)
    exact ⟨List.count_eq_one_of_mem distinct site, List.disjoint_left.1 apart site⟩

end Method

/-- The flags of a structured graph are complete. -/
theorem Structured.IsOf.complete {graph : BlockGraph} {found : Structured} {tree : Tree}
    {flags : Flags} (checked : graph.Checked) (isFound : found.IsOf graph)
    (marked : found.root.marked found.recursing = .ok (tree, flags)) :
    IsMarkedTree graph found.forest tree flags ∧ flags.Complete found.forest tree := by
  have isOf := isFound.isOf
  obtain ⟨other, otherFlags, again, isMarked⟩ := isFound.exists_marked checked
  cases marked.symm.trans again
  obtain ⟨⟨after, own⟩, mark, same⟩ := bind_eq_ok_iff.1 marked
  obtain ⟨rfl, rfl⟩ := Prod.mk.inj (Except.ok.inj same)
  have flagged := isFound.fits.isFlagged checked isOf isMarked.areOf owns_none mark
  refine ⟨isMarked, isMarked.complete checked isOf (flagged.awaited fun _ known => known)
    fun coord known => ?_⟩
  rw [flagged.jumpSites]
  exact flagged.recorded coord known

/-- In every graph built from a list of blocks the flags of the marked tree are complete. -/
theorem BlockGraph.exists_marked_complete {entry : BlockId} {blocks : List Block}
    {graph : BlockGraph} (built : BlockGraph.ofBlocks entry blocks = .ok graph) :
    ∃ found tree flags, graph.toStructured = .ok found ∧
      found.root.marked found.recursing = .ok (tree, flags) ∧
      LoopForest.ofGraph graph = .ok found.forest ∧ flags.Complete found.forest tree := by
  have checked := checked_ofBlocks built
  obtain ⟨found, made, search, isFound⟩ := checked.exists_toStructured
  obtain ⟨tree, flags, marked, -⟩ := isFound.exists_marked checked
  exact ⟨found, tree, flags, made, marked, search, (isFound.complete checked marked).2⟩

/-- The table of two nested loops has every flag that is waited for. -/
theorem BlockGraph.exists_marked_complete_doublySpinning : ∃ graph found tree flags,
    BlockGraph.ofBlocks ⟨0⟩ doublySpinningBlocks = .ok graph ∧ graph.toStructured = .ok found ∧
      found.root.marked found.recursing = .ok (tree, flags) ∧ flags.Complete found.forest tree ∧
      flags.leaving.toList = [⟨⟨2⟩, .notTaken⟩, ⟨⟨3⟩, .notTaken⟩] ∧
      flags.recursing.toList = [⟨⟨3⟩, .taken⟩] ∧ tree.inlinedWays = [⟨⟨2⟩, .taken⟩] := by
  have built : BlockGraph.ofBlocks ⟨0⟩ doublySpinningBlocks = .ok _ := rfl
  obtain ⟨found, tree, flags, made, marked, -, complete⟩ := BlockGraph.exists_marked_complete built
  have shapes : (BlockGraph.ofBlocks ⟨0⟩ doublySpinningBlocks).toOption.bind (fun graph =>
      graph.toStructured.toOption.bind fun found =>
        (found.root.marked found.recursing).toOption.map fun made =>
          (made.2.leaving.toList, made.2.recursing.toList, made.1.inlinedWays)) =
      some ([⟨⟨2⟩, .notTaken⟩, ⟨⟨3⟩, .notTaken⟩], [⟨⟨3⟩, .taken⟩], [⟨⟨2⟩, .taken⟩]) := by
    decide +kernel
  rw [built, Except.toOption, Option.bind_some, made, Except.toOption, Option.bind_some, marked,
    Except.toOption, Option.map_some, Option.some.injEq, Prod.mk.injEq, Prod.mk.injEq] at shapes
  exact ⟨_, found, tree, flags, built, made, marked, complete, shapes⟩

end GotoFree
