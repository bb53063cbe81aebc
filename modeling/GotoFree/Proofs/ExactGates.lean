import GotoFree.Proofs.Marking
import GotoFree.Proofs.Nesting

/-!
# What a gate lists

A gate of a sequence lists the plain edges to its element, all of them and nothing else, and an
element has none only if everything that flows past the elements before it leads to it
(`Tree.GatedExactly`, `BlockGraph.exists_marked_gates`). Gates are made from the edges that have
left earlier elements, so this needs that every plain edge to an element that is not the first one
starts in an earlier one: it does not come from outside, as the sequence is entered at its first
element, not from a later element, and not from the element itself
(`Fits.not_mem_heads_of_plain`).
-/

namespace GotoFree

open LoopForest

/-- An edge that flows out of one of some elements and leads to none of them. -/
def FlowsPast (front : List Tree) (coord : Coord) (target : BlockId) : Prop :=
  (∃ earlier ∈ front, (coord, target) ∈ earlier.jumps.flow) ∧ ∀ other ∈ front, target ∉ other.heads

/-- The gate of an element of a sequence is the one that the elements before it ask for. -/
structure Tree.GatedExactly (graph : BlockGraph) (forest : LoopForest) (front : List Tree)
    (tree : Tree) : Prop where
  /-- The first element has no gate. -/
  first : front = [] → tree.notes.gateOn = none
  /-- A gate lists the edges that lead to the element and continue no loop. -/
  gated_iff : ∀ coords, tree.notes.gateOn = some coords → ∀ coord,
    coord ∈ coords ↔ ∃ target ∈ tree.heads, Plain graph forest coord target
  ungated_iff : front ≠ [] →
    (tree.notes.gateOn = none ↔ ∀ coord target, FlowsPast front coord target → target ∈ tree.heads)

/-- Nodes without common blocks are told apart by a block. -/
theorem Tree.eq_of_mem_blocks {trees : List Tree} (distinct : (trees.flatMap Tree.blocks).Nodup)
    {one two : Tree} (here : one ∈ trees) (there : two ∈ trees) {id : BlockId}
    (inOne : id ∈ one.blocks) (inTwo : id ∈ two.blocks) : one = two := by
  refine @eq_of_pairwise_not _ _ (fun tree => id ∈ tree.blocks) ?_ _ _ here there inOne inTwo
  exact (List.nodup_flatMap.1 distinct).2.imp fun apart left right => apart left right

section ExactGates

variable {graph : BlockGraph} {forest : LoopForest} {NotedAs : Option Loop → Tree → Prop}
  {around : Option Loop} {coord : Coord} {target : BlockId}

/-! ## No plain edge leads back to a head -/

/-- Neither the plain edge along an arm nor one out of a block there leads back to a block that the
ways out of the arm avoid. -/
theorem IsArm.ne_of_plain (checked : graph.Checked) {way : Coord} {entry : BlockId} {arm : Arm}
    (isArm : IsArm graph forest around way entry arm)
    (fits : ∀ tree, arm = .nested tree → Fits graph forest NotedAs around tree)
    {blocks : List BlockId} {id : BlockId} (member : id ∈ blocks)
    (apart : id ∉ Tree.blocksOfArm arm)
    (leaves : ∀ out, armWays graph forest way arm out → Leaves graph forest blocks out)
    (plain : Plain graph forest coord target)
    (source : coord = way ∨ coord.block ∈ Tree.blocksOfArm arm) : target ≠ id := by
  rintro rfl
  cases isArm with
  | jump =>
      rcases source with along | inside
      · exact (leaves coord along).2 target plain member
      · cases inside
  | @nested inner there heads =>
      rcases source with along | inside
      · rw [along] at plain
        have isHead : target ∈ inner.heads :=
          heads ▸ SortedSet.mem_singleton.2 (plain.unique checked there)
        exact apart ((fits inner rfl).part.heads_mem target isHead)
      · have out : Leaves graph forest inner.blocks coord :=
          ⟨inside, fun other plain' => plain.unique checked plain' ▸ apart⟩
        exact (leaves coord out).2 target plain member

/-- A plain edge out of a block of a node does not lead to a head of the node. -/
theorem Fits.not_mem_heads_of_plain (checked : graph.Checked) (isOf : forest.IsOf graph)
    {tree : Tree} (fits : Fits graph forest NotedAs around tree) (owns : forest.Owns around)
    (plain : Plain graph forest coord target) (source : coord.block ∈ tree.blocks) :
    target ∉ tree.heads := by
  induction fits with
  | jump part noted direct straight leaves =>
      rw [Tree.blocks_jump, List.mem_singleton] at source
      have last := checked.branch_eq_exit (source ▸ straight) plain.1
      rw [← source, ← last] at leaves
      simpa [Tree.heads, source] using leaves.2 target plain
  | @conditional around label taken notTaken takenTarget notTakenTarget part noted direct branching
      edges takenArm notTakenArm takenLeaves notTakenLeaves takenFits notTakenFits =>
      have distinct := part.distinct
      rw [Tree.blocks_conditional, List.nodup_cons, List.mem_append, not_or] at distinct
      obtain ⟨⟨notTaken', notNotTaken⟩, -⟩ := distinct
      have own : label.head ∈ (Tree.conditional label taken notTaken).blocks := by simp
      rw [Tree.heads, SortedSet.mem_singleton]
      rw [Tree.blocks_conditional, List.mem_cons, List.mem_append] at source
      have throughTaken := takenArm.ne_of_plain checked takenFits own notTaken' takenLeaves plain
      have throughNotTaken :=
        notTakenArm.ne_of_plain checked notTakenFits own notNotTaken notTakenLeaves plain
      rcases source with here | inTaken | inNotTaken
      · have edge := plain.1
        rw [BlockGraph.HasEdge, here, edges, List.mem_pair] at edge
        rcases edge with along | along
        · exact throughTaken (.inl (Prod.mk.inj along).1)
        · exact throughNotTaken (.inl (Prod.mk.inj along).1)
      · exact throughTaken (.inr inTaken)
      · exact throughNotTaken (.inr inNotTaken)
  | @sequence around label first rest part noted chain flat fits ih =>
      intro isHead
      rw [Tree.blocks_sequence, List.flatMap_cons, List.mem_append] at source
      rcases source with inFirst | later
      · exact ih first (by simp) owns inFirst isHead
      · obtain ⟨other, among, holds⟩ := List.mem_flatMap.1 later
        have ordered := (List.pairwise_cons.1 chain.ordered).1 other among coord target plain holds
        exact ordered ((fits first (by simp)).part.heads_mem target isHead)
  | loop part noted nested head heads whole fits =>
      intro isEntry
      rw [Tree.blocks_loop] at source
      have known := owns.mem_all (Loop.mem_flattenAll_of_mem nested)
      exact isOf.continued?_eq_none_iff.1 plain.2 _ known isEntry ((whole _).1 source)
  | merge part noted heads several isEntry incoming_iff leaves fits ih =>
      intro isHead
      obtain ⟨entered, among, isHead⟩ := Tree.mem_headsOfAll.1 isHead
      rw [Tree.blocks_merge] at source
      obtain ⟨left, here, holds⟩ := List.mem_flatMap.1 source
      have inside := (fits entered among).part.heads_mem target isHead
      have distinct := part.distinct
      rw [Tree.blocks_merge] at distinct
      by_cases within : target ∈ left.blocks
      · obtain rfl := Tree.eq_of_mem_blocks distinct here among within inside
        exact ih left here owns holds isHead
      · have out : Leaves graph forest left.blocks coord :=
          ⟨holds, fun other plain' => plain.unique checked plain' ▸ within⟩
        refine (leaves left here coord out).2 target plain ?_
        rw [Tree.blocks_merge]
        exact List.mem_flatMap.2 ⟨entered, among, inside⟩

/-! ## Edges to an element of a sequence -/

/-- A plain edge to a head of an element that is not the first one comes from an earlier element. -/
theorem Chain.source_mem_front (checked : graph.Checked) (isOf : forest.IsOf graph)
    (owns : forest.Owns around) {label : Label} {first tree : Tree} {front rest : List Tree}
    (part : IsPartOf graph forest around (.sequence label (first :: front ++ tree :: rest)))
    (chain : Chain graph forest (first :: front ++ tree :: rest))
    (fits : ∀ elem ∈ first :: front ++ tree :: rest, Fits graph forest NotedAs around elem)
    (plain : Plain graph forest coord target) (isHead : target ∈ tree.heads) :
    coord.block ∈ (first :: front).flatMap Tree.blocks := by
  have inside := (fits tree (by simp)).part.heads_mem target isHead
  obtain ⟨-, apartRest, apart⟩ := List.pairwise_append.1 chain.apart
  obtain ⟨-, orderedRest, -⟩ := List.pairwise_append.1 chain.ordered
  by_contra notBefore
  by_cases within : coord.block ∈ (first :: front ++ tree :: rest).flatMap Tree.blocks
  · rw [List.flatMap_append, List.mem_append, @List.flatMap_cons _ _ tree, List.mem_append]
      at within
    rcases within with before | here | after
    · exact notBefore before
    · exact (fits tree (by simp)).not_mem_heads_of_plain checked isOf owns plain here isHead
    · obtain ⟨later, among, holds⟩ := List.mem_flatMap.1 after
      exact (List.pairwise_cons.1 orderedRest).1 later among coord target plain holds inside
  · -- From outside the sequence is entered at its first element.
    have entered : target ∈ first.heads := by
      have intoFirst := part.entered plain.1
      rw [Tree.blocks_sequence] at intoFirst
      exact intoFirst within (List.mem_flatMap.2 ⟨tree, by simp, inside⟩)
    have holds := (fits first (by simp)).part.heads_mem target entered
    exact apart first (by simp) tree (by simp) target holds inside

/-- What is on its way after some elements is what flows past them. -/
theorem onItsWay_iff_flowsPast (checked : graph.Checked) {front : List Tree}
    (parts : ∀ tree ∈ front, IsPartOf graph forest around tree)
    (distinct : (front.flatMap Tree.blocks).Nodup) :
    OnItsWay graph forest around (front.flatMap Tree.blocks) coord target ↔
      FlowsPast front coord target := by
  constructor
  · rintro ⟨plain, inside, source, ahead⟩
    have avoids {other : Tree} (among : other ∈ front) : target ∉ other.blocks := fun holds =>
      ahead (List.mem_flatMap.2 ⟨other, among, holds⟩)
    obtain ⟨earlier, among, holds⟩ := List.mem_flatMap.1 source
    refine ⟨⟨earlier, among, (parts earlier among).ways.flow.2 ⟨⟨holds, ?_⟩, plain, inside⟩⟩, ?_⟩
    · exact fun other plain' => plain.unique checked plain' ▸ avoids among
    · exact fun other isOther isHead =>
        avoids isOther ((parts other isOther).heads_mem target isHead)
  · rintro ⟨⟨earlier, among, flows⟩, past⟩
    obtain ⟨⟨source, leaves⟩, plain, inside⟩ := (parts earlier among).ways.flow.1 flows
    refine ⟨plain, inside, List.mem_flatMap.2 ⟨earlier, among, source⟩, fun before => ?_⟩
    obtain ⟨other, isOther, holds⟩ := List.mem_flatMap.1 before
    -- Control enters another element at a head of it, and does not come back to its own.
    by_cases inOther : coord.block ∈ other.blocks
    · obtain rfl := Tree.eq_of_mem_blocks distinct among isOther source inOther
      exact leaves target plain holds
    · exact past other isOther ((parts other isOther).entered plain.1 inOther holds)

/-- The gates of a list of nodes, seen from one of them. -/
theorem AllGated.gatedAfter {recorded : CoordSet} {front rest : List Tree} {tree : Tree}
    {before : List BlockId}
    (gated : AllGated graph forest recorded around before (front ++ tree :: rest)) :
    GatedAfter graph forest recorded around (before ++ front.flatMap Tree.blocks) tree := by
  induction front generalizing before with
  | nil => simpa using gated.1
  | cons first front ih =>
      have later := ih gated.2
      rwa [List.append_assoc, ← List.flatMap_cons] at later

/-! ## The gates of a sequence -/

/-- A gate that serves what is on its way is exact, as every plain edge to the node is. -/
theorem GatedAfter.gatedExactly {recorded : CoordSet} {before : List BlockId} {front : List Tree}
    {tree : Tree} (gated : GatedAfter graph forest recorded around before tree)
    (started : front ≠ [])
    (exact : ∀ {coord target}, OnItsWay graph forest around before coord target ↔
      FlowsPast front coord target)
    (comes : ∀ {coord target}, Plain graph forest coord target → target ∈ tree.heads →
      OnItsWay graph forest around before coord target) : tree.GatedExactly graph forest front where
  first none := absurd none started
  gated_iff coords gate coord := by
    constructor
    · intro member
      obtain ⟨target, isHead, way⟩ := gated.arriving coords gate coord member
      exact ⟨target, isHead, way.plain⟩
    · rintro ⟨target, isHead, plain⟩
      exact ((gated.gated coords gate coord target (comes plain isHead)).2).2 isHead
  ungated_iff _ := by
    constructor
    · intro none coord target past
      exact gated.ungated none coord target (exact.2 past)
    · intro leads
      by_contra gate
      obtain ⟨coords, gate⟩ := Option.ne_none_iff_exists'.1 gate
      obtain ⟨coord, target, way, other⟩ := gated.skipped coords gate
      exact other (leads coord target (exact.1 way))

/-- Every element of a sequence of a marked tree has its exact gate. -/
theorem Fits.gatedExactly (checked : graph.Checked) (isOf : forest.IsOf graph)
    {recorded : CoordSet} {label : Label} {front rest : List Tree} {tree : Tree}
    (fits : Fits graph forest (Noted graph forest recorded) around
      (.sequence label (front ++ tree :: rest))) (owns : forest.Owns around) :
    tree.GatedExactly graph forest front := by
  cases front with
  | nil =>
      have ungated := fits.noted.1
      exact ⟨fun _ => ungated, fun coords gate => (by cases ungated.symm.trans gate),
        fun started => absurd rfl started⟩
  | cons first front =>
      have gated := fits.noted.2.gatedAfter
      rw [← List.flatMap_cons] at gated
      cases fits with
      | sequence part noted chain flat fits =>
      rw [List.append_eq, ← List.cons_append] at chain fits part
      have distinct := part.distinct
      rw [Tree.blocks_sequence, List.flatMap_append] at distinct
      refine gated.gatedExactly (by simp) ?_ fun {coord target} plain isHead => ?_
      · exact onItsWay_iff_flowsPast checked
          (fun other member => (fits other (List.mem_append_left _ member)).part)
          distinct.of_append_left
      · have here := (fits tree (by simp)).part
        have inside := here.heads_mem target isHead
        exact ⟨plain, here.inside target inside,
          chain.source_mem_front checked isOf owns part fits plain isHead,
          fun before => List.disjoint_of_nodup_append distinct before (by simp [inside])⟩

end ExactGates

/-- Every graph built from a list of blocks is structured and marked, and each element of a sequence
then has its exact gate. -/
theorem BlockGraph.exists_marked_gates {entry : BlockId} {blocks : List Block}
    {graph : BlockGraph} (built : BlockGraph.ofBlocks entry blocks = .ok graph) :
    ∃ found tree flags, graph.toStructured = .ok found ∧
      LoopForest.ofGraph graph = .ok found.forest ∧
      found.root.marked found.recursing = .ok (tree, flags) ∧
      ∀ label front elem rest, .sequence label (front ++ elem :: rest) ∈ tree.nodes →
        elem.GatedExactly graph found.forest front := by
  have checked := checked_ofBlocks built
  obtain ⟨found, made, search, isFound⟩ := checked.exists_toStructured
  obtain ⟨tree, flags, marked, isMarked⟩ := isFound.exists_marked checked
  refine ⟨found, tree, flags, made, search, marked, fun label front elem rest member => ?_⟩
  obtain ⟨region, owns, fits⟩ := isMarked.fits.of_mem_nodes owns_none member
  exact fits.gatedExactly checked isFound.isOf owns

/-- A method whose third block is passed over when its second one branches past it. -/
def skippingBlocks : List Block :=
  [⟨⟨0⟩, [.branch .nondet], [⟨1⟩, ⟨2⟩]⟩, ⟨⟨1⟩, [.branch .nondet], [⟨2⟩, ⟨3⟩]⟩,
    ⟨⟨2⟩, [.goto], [⟨3⟩]⟩, ⟨⟨3⟩, [.ret none], []⟩]

/-- An element that may be skipped gets a gate, and the others get none. -/
theorem BlockGraph.exists_marked_gates_skipping : ∃ graph found label first elem last flags coords,
    BlockGraph.ofBlocks ⟨0⟩ skippingBlocks = .ok graph ∧ graph.toStructured = .ok found ∧
      found.root.marked found.recursing = .ok (.sequence label [first, elem, last], flags) ∧
      elem.notes.gateOn = some coords ∧ coords.toList = [⟨⟨0⟩, .notTaken⟩, ⟨⟨1⟩, .taken⟩] ∧
      elem.GatedExactly graph found.forest [first] := by
  have built : BlockGraph.ofBlocks ⟨0⟩ skippingBlocks = .ok _ := rfl
  obtain ⟨found, tree, flags, made, search, marked, exact⟩ := BlockGraph.exists_marked_gates built
  have shape : (BlockGraph.ofBlocks ⟨0⟩ skippingBlocks).toOption.bind (fun graph =>
      graph.toStructured.toOption.bind fun found =>
        (found.root.marked found.recursing).toOption.map fun made =>
          match made.1 with
          | .sequence _ elems => elems.map fun elem => elem.notes.gateOn.map SortedSet.toList
          | .jump .. | .conditional .. | .loop .. | .merge .. => []) =
        some [none, some [⟨⟨0⟩, .notTaken⟩, ⟨⟨1⟩, .taken⟩], none] := by
    decide +kernel
  rw [built, Except.toOption, Option.bind_some, made, Except.toOption, Option.bind_some, marked,
    Except.toOption, Option.map_some, Option.some.injEq] at shape
  cases tree with
  | sequence label elems =>
      obtain ⟨first, rest, rfl, -, shape⟩ := List.map_eq_cons_iff.1 shape
      obtain ⟨elem, rest, rfl, isGate, shape⟩ := List.map_eq_cons_iff.1 shape
      obtain ⟨last, rest, rfl, -, shape⟩ := List.map_eq_cons_iff.1 shape
      obtain rfl := List.map_eq_nil_iff.1 shape
      obtain ⟨coords, gate, listed⟩ := Option.map_eq_some_iff.1 isGate
      exact ⟨_, found, label, first, elem, last, flags, coords, built, made, marked, gate, listed,
        exact label [first] elem [last] (by simp [Tree.nodes])⟩
  | jump | conditional | loop | merge => cases shape

end GotoFree
