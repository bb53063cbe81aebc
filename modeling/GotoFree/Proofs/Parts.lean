import Mathlib.Data.List.Induction
import Mathlib.Data.List.Nodup
import GotoFree.Proofs.Ways

/-!
# Well-formed trees

`Fits` says of a tree what the placement of blocks establishes and everything after it relies on.
Each node is a part of its region (`IsPart`): an edge from elsewhere enters it at one of its heads,
and its `Jumps` sum up the ways out of its blocks. The elements of a sequence form a `Chain`: none
leads back to an earlier one, and each but the first is led to by an earlier one.
-/

namespace GotoFree

open LoopForest

/-! ## Blocks and heads of a tree -/

namespace Tree

/-- The blocks that have a node in an arm. -/
def blocksOfArm : Arm → List BlockId
  | .jump .. => []
  | .nested tree => tree.blocks

@[simp] theorem blocks_jump {label : Label} {coord : Coord} :
    (jump label coord).blocks = [label.head] := rfl

/-- The blocks of an arm are the own blocks of its nodes. -/
theorem filterMap_nodesOfArm (arm : Arm) :
    (nodesOfArm arm).filterMap ownBlock? = blocksOfArm arm := by
  cases arm <;> rfl

@[simp] theorem blocks_conditional {label : Label} {taken notTaken : Arm} :
    (conditional label taken notTaken).blocks =
      label.head :: (blocksOfArm taken ++ blocksOfArm notTaken) := by
  rw [← filterMap_nodesOfArm, ← filterMap_nodesOfArm, ← List.filterMap_append]
  rfl

theorem nodesOfAll_eq (trees : List Tree) : nodesOfAll trees = trees.flatMap nodes := by
  induction trees with
  | nil => rfl
  | cons first rest ih => exact congrArg (first.nodes ++ ·) ih

/-- The blocks of some trees are the own blocks of their nodes. -/
theorem filterMap_nodesOfAll (trees : List Tree) :
    (nodesOfAll trees).filterMap ownBlock? = trees.flatMap blocks := by
  induction trees with
  | nil => rfl
  | cons first rest ih => exact List.filterMap_append.trans (congrArg (first.blocks ++ ·) ih)

@[simp] theorem blocks_sequence {label : Label} {elems : List Tree} :
    (sequence label elems).blocks = elems.flatMap blocks :=
  filterMap_nodesOfAll elems

@[simp] theorem blocks_loop {label : Label} {entries : SortedSet BlockId} {body : Tree} :
    (loop label entries body).blocks = body.blocks := rfl

@[simp] theorem blocks_merge {label : Label} {alternatives : List Tree} {incoming : Incoming} :
    (merge label alternatives incoming).blocks = alternatives.flatMap blocks :=
  filterMap_nodesOfAll alternatives

/-- The heads of some trees are those of each of them. -/
theorem mem_headsOfAll {trees : List Tree} {id : BlockId} :
    id ∈ headsOfAll trees ↔ ∃ tree ∈ trees, id ∈ tree.heads := by
  induction trees with
  | nil => simp [headsOfAll]
  | cons first rest ih => simp [headsOfAll, ih, or_comm]

/-- Whether the node is a sequence. -/
def isSequence : Tree → Bool
  | sequence .. => true
  | _ => false

/-- The heads that come later in a sequence are those of its elements. -/
theorem mem_later {trees : List Tree} {id : BlockId} :
    id ∈ (sequenceEnds trees).2 ↔ ∃ tree ∈ trees, id ∈ tree.heads := by
  induction trees with
  | nil => simp [sequenceEnds]
  | cons first rest ih => simp [sequenceEnds, ih, or_comm]

end Tree

/-! ## Parts -/

/-- A node is a part of its region: it is entered at its heads, and left as its record says. -/
structure IsPartOf (graph : BlockGraph) (forest : LoopForest) (around : Option Loop)
    (tree : Tree) : Prop where
  inside : ∀ id ∈ tree.blocks, id ∈ blocksOf graph around
  distinct : tree.blocks.Nodup
  head_mem : tree.head ∈ tree.heads
  heads_mem : ∀ id ∈ tree.heads, id ∈ tree.blocks
  entered : ∀ {coord target}, graph.HasEdge coord target → coord.block ∉ tree.blocks →
    target ∈ tree.blocks → target ∈ tree.heads
  ways : Sums graph forest around (Leaves graph forest tree.blocks) tree.jumps

/-- An arm of a conditional along a way out with a target. -/
inductive IsArm (graph : BlockGraph) (forest : LoopForest) (around : Option Loop) (coord : Coord)
    (target : BlockId) : Arm → Prop where
  | jump {jumps : Jumps} (sums : Sums graph forest around (fun way => way = coord) jumps) :
      IsArm graph forest around coord target (.jump coord jumps)
  | nested {tree : Tree} (plain : Plain graph forest coord target)
      (heads : tree.heads = .singleton target) :
      IsArm graph forest around coord target (.nested tree)

/-- The ways out of a block along a coordinate, or of the part that an arm holds. -/
def armWays (graph : BlockGraph) (forest : LoopForest) (coord : Coord) : Arm → Coord → Prop
  | .jump .. => fun way => way = coord
  | .nested tree => Leaves graph forest tree.blocks

/-- Nodes that are run in order: none leads back to an earlier one, and each but the first is led
to by an earlier one. -/
structure Chain (graph : BlockGraph) (forest : LoopForest) (elems : List Tree) : Prop where
  apart : elems.Pairwise fun first second => ∀ id ∈ first.blocks, id ∉ second.blocks
  ordered : elems.Pairwise fun first second => ∀ coord target,
    Plain graph forest coord target → coord.block ∈ second.blocks → target ∉ first.blocks
  reached : ∀ front tree rest, elems = front ++ tree :: rest → front ≠ [] →
    ∃ coord target, Plain graph forest coord target ∧
      (∃ earlier ∈ front, coord.block ∈ earlier.blocks) ∧ target ∈ tree.blocks

/-- A node without notes. -/
def Bare (_ : Option Loop) (tree : Tree) : Prop := tree.notes = .none

/-- A tree that structures a part of a region, with notes of a kind on each node. -/
inductive Fits (graph : BlockGraph) (forest : LoopForest)
    (NotedAs : Option Loop → Tree → Prop) : Option Loop → Tree → Prop where
  | jump {around : Option Loop} {label : Label}
      (part : IsPartOf graph forest around (.jump label ⟨label.head, .exit⟩))
      (noted : NotedAs around (.jump label ⟨label.head, .exit⟩))
      (direct : forest.innermost? label.head = around)
      (straight : graph.isBranching label.head = false)
      (leaves : Leaves graph forest [label.head] ⟨label.head, .exit⟩) :
      Fits graph forest NotedAs around (.jump label ⟨label.head, .exit⟩)
  | conditional {around : Option Loop} {label : Label} {taken notTaken : Arm}
      {takenTarget notTakenTarget : BlockId}
      (part : IsPartOf graph forest around (.conditional label taken notTaken))
      (noted : NotedAs around (.conditional label taken notTaken))
      (direct : forest.innermost? label.head = around)
      (branching : graph.isBranching label.head = true)
      (edges : graph.outEdges label.head =
        [(⟨label.head, .taken⟩, takenTarget), (⟨label.head, .notTaken⟩, notTakenTarget)])
      (takenArm : IsArm graph forest around ⟨label.head, .taken⟩ takenTarget taken)
      (notTakenArm : IsArm graph forest around ⟨label.head, .notTaken⟩ notTakenTarget notTaken)
      (takenLeaves : ∀ way, armWays graph forest ⟨label.head, .taken⟩ taken way →
        Leaves graph forest (Tree.conditional label taken notTaken).blocks way)
      (notTakenLeaves : ∀ way, armWays graph forest ⟨label.head, .notTaken⟩ notTaken way →
        Leaves graph forest (Tree.conditional label taken notTaken).blocks way)
      (takenFits : ∀ tree, taken = .nested tree → Fits graph forest NotedAs around tree)
      (notTakenFits : ∀ tree, notTaken = .nested tree → Fits graph forest NotedAs around tree) :
      Fits graph forest NotedAs around (.conditional label taken notTaken)
  | sequence {around : Option Loop} {label : Label} {first : Tree} {rest : List Tree}
      (part : IsPartOf graph forest around (.sequence label (first :: rest)))
      (noted : NotedAs around (.sequence label (first :: rest)))
      (chain : Chain graph forest (first :: rest))
      (flat : ∀ tree ∈ first :: rest, tree.isSequence = false)
      (fits : ∀ tree ∈ first :: rest, Fits graph forest NotedAs around tree) :
      Fits graph forest NotedAs around (.sequence label (first :: rest))
  | loop {around : Option Loop} {label : Label} {body : Tree} {loop : Loop}
      (part : IsPartOf graph forest around (.loop label loop.entries body))
      (noted : NotedAs around (.loop label loop.entries body))
      (nested : loop ∈ forest.inside around)
      (head : label.head = loop.head)
      (heads : body.heads = loop.entries)
      (whole : ∀ id, id ∈ body.blocks ↔ id ∈ loop.body)
      (fits : Fits graph forest NotedAs (some loop) body) :
      Fits graph forest NotedAs around (.loop label loop.entries body)
  | merge {around : Option Loop} {label : Label} {alternatives : List Tree} {incoming : Incoming}
      (part : IsPartOf graph forest around (.merge label alternatives incoming))
      (noted : NotedAs around (.merge label alternatives incoming))
      (heads : List.Forall₂ (fun entry tree => tree.heads = .singleton entry)
        (Tree.headsOfAll alternatives).toList alternatives)
      (several : ∀ id ∈ Tree.headsOfAll alternatives,
        ∃ other ∈ Tree.headsOfAll alternatives, other ≠ id)
      (isEntry : ∀ id ∈ Tree.headsOfAll alternatives, id ∈ cutOf around)
      (incoming_iff : ∀ entry coords, incoming.get? entry = some coords ↔
        entry ∈ Tree.headsOfAll alternatives ∧ coords = .ofList (graph.inCoords entry))
      (leaves : ∀ tree ∈ alternatives, ∀ way, Leaves graph forest tree.blocks way →
        Leaves graph forest (Tree.merge label alternatives incoming).blocks way)
      (fits : ∀ tree ∈ alternatives, Fits graph forest NotedAs around tree) :
      Fits graph forest NotedAs around (.merge label alternatives incoming)

section Sequences

variable {graph : BlockGraph} {forest : LoopForest} {NotedAs : Option Loop → Tree → Prop}
  {around : Option Loop}

/-- What fits a region is a part of it. -/
theorem Fits.part {tree : Tree} (fits : Fits graph forest NotedAs around tree) :
    IsPartOf graph forest around tree := by
  cases fits <;> assumption

/-- What fits is noted. -/
theorem Fits.noted {tree : Tree} (fits : Fits graph forest NotedAs around tree) :
    NotedAs around tree := by
  cases fits <;> assumption

/-- What fits has a head. -/
theorem Fits.not_headless {tree : Tree} (fits : Fits graph forest NotedAs around tree) :
    tree.isHeadless = false := by
  induction fits with
  | jump | conditional | loop => simp [Tree.isHeadless]
  | sequence part noted chain flat fits ih =>
      rw [Tree.isHeadless]
      exact ih _ List.mem_cons_self
  | @merge around label alternatives incoming part noted heads several isEntry incoming_iff leaves
      fits ih =>
      rw [Tree.isHeadless]
      clear part noted heads several isEntry incoming_iff leaves fits
      induction alternatives with
      | nil => rfl
      | cons first rest inductionHypothesis =>
          rw [Tree.anyHeadless, ih first (by simp), Bool.false_or]
          exact inductionHypothesis fun tree member => ih tree (List.mem_cons_of_mem _ member)

/-- Trees that fit have heads. -/
theorem anyHeadless_of_fits {trees : List Tree}
    (fits : ∀ tree ∈ trees, Fits graph forest NotedAs around tree) :
    Tree.anyHeadless trees = false := by
  induction trees with
  | nil => rfl
  | cons first rest ih =>
      rw [Tree.anyHeadless, (fits first (by simp)).not_headless, Bool.false_or]
      exact ih fun tree member => fits tree (List.mem_cons_of_mem _ member)

/-! ## Chains -/

/-- One tree is a chain. -/
theorem Chain.single (tree : Tree) : Chain graph forest [tree] where
  apart := List.pairwise_singleton _ _
  ordered := List.pairwise_singleton _ _
  reached front other rest split nonempty := by
    cases front with
    | nil => exact absurd rfl nonempty
    | cons first front =>
        have lengths := congrArg List.length split
        simp at lengths

/-- A chain goes on with another one that it leads to and that does not lead back. -/
theorem Chain.append {front back : List Tree} (one : Chain graph forest front)
    (two : Chain graph forest back)
    (apart : ∀ first ∈ front, ∀ second ∈ back, ∀ id ∈ first.blocks, id ∉ second.blocks)
    (ordered : ∀ first ∈ front, ∀ second ∈ back, ∀ coord target,
      Plain graph forest coord target → coord.block ∈ second.blocks → target ∉ first.blocks)
    (reached : ∀ tree rest, back = tree :: rest → ∃ coord target,
      Plain graph forest coord target ∧ (∃ earlier ∈ front, coord.block ∈ earlier.blocks) ∧
        target ∈ tree.blocks) : Chain graph forest (front ++ back) where
  apart := List.pairwise_append.2 ⟨one.apart, two.apart, apart⟩
  ordered := List.pairwise_append.2 ⟨one.ordered, two.ordered, ordered⟩
  reached := by
    intro before tree after split nonempty
    rcases List.append_eq_append_iff.1 split with ⟨more, same, rest⟩ | ⟨more, same, rest⟩
    · cases more with
      | nil =>
          rw [List.append_nil] at same
          exact same ▸ reached tree after rest
      | cons first more =>
          obtain ⟨coord, target, plain, ⟨earlier, member, source⟩, inside⟩ :=
            two.reached (first :: more) tree after rest (by simp)
          exact ⟨coord, target, plain, ⟨earlier, by simp [same, member], source⟩, inside⟩
    · cases more with
      | nil =>
          rw [List.append_nil] at same
          exact same ▸ reached tree after (by simpa using rest.symm)
      | cons first more =>
          obtain ⟨rfl, -⟩ := List.cons_eq_cons.1 rest
          exact one.reached before _ more same nonempty

/-- A node goes on with several chains, each led to by what stands before it. -/
theorem Chain.join {node : Tree} {groups : List (List Tree)}
    (chains : ∀ group ∈ groups, Chain graph forest group)
    (apart : groups.Pairwise fun first second => ∀ left ∈ first, ∀ right ∈ second,
      ∀ id ∈ left.blocks, id ∉ right.blocks)
    (ordered : groups.Pairwise fun first second => ∀ left ∈ first, ∀ right ∈ second,
      ∀ coord target, Plain graph forest coord target → coord.block ∈ right.blocks →
        target ∉ left.blocks)
    (apartNode : ∀ group ∈ groups, ∀ tree ∈ group, ∀ id ∈ node.blocks, id ∉ tree.blocks)
    (orderedNode : ∀ group ∈ groups, ∀ tree ∈ group, ∀ coord target,
      Plain graph forest coord target → coord.block ∈ tree.blocks → target ∉ node.blocks)
    (reached : ∀ front tree rest back, groups = front ++ (tree :: rest) :: back →
      ∃ coord target, Plain graph forest coord target ∧
        (∃ earlier ∈ node :: front.flatten, coord.block ∈ earlier.blocks) ∧
        target ∈ tree.blocks) : Chain graph forest (node :: groups.flatten) := by
  induction groups using List.reverseRecOn with
  | nil => exact .single node
  | append_singleton front group ih =>
      rw [List.flatten_append, List.flatten_singleton, ← List.cons_append]
      obtain ⟨apartFront, -, apartLast⟩ := List.pairwise_append.1 apart
      obtain ⟨orderedFront, -, orderedLast⟩ := List.pairwise_append.1 ordered
      refine .append (ih ?_ apartFront orderedFront ?_ ?_ ?_) (chains group (by simp)) ?_ ?_ ?_
      · exact fun other member => chains other (by simp [member])
      · exact fun other member => apartNode other (by simp [member])
      · exact fun other member => orderedNode other (by simp [member])
      · intro before tree rest back split
        exact reached before tree rest (back ++ [group]) (by simp [split])
      · intro first member second among
        rcases List.mem_cons.1 member with rfl | member
        · exact apartNode group (by simp) second among
        · obtain ⟨other, here, there⟩ := List.mem_flatten.1 member
          exact apartLast other here group (by simp) first there second among
      · intro first member second among
        rcases List.mem_cons.1 member with rfl | member
        · exact orderedNode group (by simp) second among
        · obtain ⟨other, here, there⟩ := List.mem_flatten.1 member
          exact orderedLast other here group (by simp) first there second among
      · intro tree rest same
        exact reached front tree rest [] (by simp [same])

/-- The record of a sequence sums up the ways out of its elements together. -/
theorem sums_sequenceEnds (checked : graph.Checked) {elems : List Tree}
    (parts : ∀ tree ∈ elems, IsPartOf graph forest around tree)
    (apart : elems.Pairwise fun first second => ∀ id ∈ first.blocks, id ∉ second.blocks)
    (ordered : elems.Pairwise fun first second => ∀ coord target,
      Plain graph forest coord target → coord.block ∈ second.blocks → target ∉ first.blocks) :
    Sums graph forest around (Leaves graph forest (elems.flatMap Tree.blocks))
      (Tree.sequenceEnds elems).1 := by
  induction elems with
  | nil => exact Sums.none.congr fun coord _ => by simp [Leaves]
  | cons tree rest ih =>
      obtain ⟨apartHere, apartRest⟩ := List.pairwise_cons.1 apart
      obtain ⟨orderedHere, orderedRest⟩ := List.pairwise_cons.1 ordered
      have part := parts tree (by simp)
      have partsRest := fun other member => parts other (List.mem_cons_of_mem _ member)
      have later : ∀ id ∈ (Tree.sequenceEnds rest).2, id ∈ blocksOf graph around := by
        intro id member
        obtain ⟨other, among, isHead⟩ := Tree.mem_later.1 member
        exact (partsRest other among).inside id ((partsRest other among).heads_mem id isHead)
      have here := part.ways.filter_flow checked later
      have both := here.union (ih partsRest apartRest orderedRest)
      refine both.congr fun coord _ => ?_
      simp only [Leaves, List.flatMap_cons, List.mem_append, not_or]
      constructor
      · rintro (⟨⟨inside, leaves⟩, notLater⟩ | ⟨inside, leaves⟩)
        · refine ⟨.inl inside, fun target plain => ⟨leaves target plain, fun within => ?_⟩⟩
          -- An edge into a later element leads to one of its heads.
          obtain ⟨other, among, holds⟩ := List.mem_flatMap.1 within
          refine notLater target plain (Tree.mem_later.2 ⟨other, among, ?_⟩)
          exact (partsRest other among).entered plain.1 (apartHere other among _ inside) holds
        · refine ⟨.inr inside, fun target plain => ⟨?_, leaves target plain⟩⟩
          obtain ⟨other, among, source⟩ := List.mem_flatMap.1 inside
          exact orderedHere other among coord target plain source
      · rintro ⟨inside | inside, leaves⟩
        · refine .inl ⟨⟨inside, fun target plain => (leaves target plain).1⟩,
            fun target plain isLater => ?_⟩
          obtain ⟨other, among, isHead⟩ := Tree.mem_later.1 isLater
          exact (leaves target plain).2 (List.mem_flatMap.2
            ⟨other, among, (partsRest other among).heads_mem target isHead⟩)
        · exact .inr ⟨inside, fun target plain => (leaves target plain).2⟩

/-- Elements that are no sequences are spliced as they are. -/
theorem splice_of_flat {elems : List Tree} (flat : ∀ tree ∈ elems, tree.isSequence = false) :
    Tree.splice elems = elems := by
  induction elems with
  | nil => rfl
  | cons first rest ih =>
      have others := ih fun tree member => flat tree (List.mem_cons_of_mem _ member)
      have here := flat first (by simp)
      unfold Tree.splice at others ⊢
      rw [List.flatMap_cons, others]
      cases first <;> simp_all [Tree.isSequence]

/-- The node made of a chain that is entered at its first element. -/
theorem exists_ofSequence (checked : graph.Checked) {first : Tree} {rest : List Tree}
    (fits : ∀ tree ∈ first :: rest, Fits graph forest Bare around tree)
    (flat : ∀ tree ∈ first :: rest, tree.isSequence = false)
    (chain : Chain graph forest (first :: rest))
    (entered : ∀ {coord target}, graph.HasEdge coord target →
      coord.block ∉ (first :: rest).flatMap Tree.blocks →
      target ∈ (first :: rest).flatMap Tree.blocks → target ∈ first.heads) :
    ∃ tree, Tree.ofSequence (first :: rest) = .ok tree ∧ Fits graph forest Bare around tree ∧
      tree.blocks = (first :: rest).flatMap Tree.blocks ∧ tree.heads = first.heads := by
  unfold Tree.ofSequence
  rw [splice_of_flat flat]
  cases rest with
  | nil => exact ⟨first, rfl, fits first (by simp), by simp, rfl⟩
  | cons second rest =>
      have parts := fun tree member => (fits tree member).part
      have headless : Tree.anyHeadless (second :: rest) = false :=
        anyHeadless_of_fits fun tree member => fits tree (List.mem_cons_of_mem _ member)
      simp only [headless]
      refine ⟨_, rfl, .sequence ⟨?_, ?_, ?_, ?_, ?_, ?_⟩ rfl chain flat fits, by simp, rfl⟩
      · intro id member
        rw [Tree.blocks_sequence] at member
        obtain ⟨tree, among, holds⟩ := List.mem_flatMap.1 member
        exact (parts tree among).inside id holds
      · rw [Tree.blocks_sequence, List.nodup_flatMap]
        exact ⟨fun tree member => (parts tree member).distinct,
          chain.apart.imp fun apart => List.disjoint_left.2 apart⟩
      · exact (parts first (by simp)).head_mem
      · intro id isHead
        rw [Tree.blocks_sequence]
        exact List.mem_flatMap.2 ⟨first, by simp, (parts first (by simp)).heads_mem id isHead⟩
      · intro coord target edge outside inside
        rw [Tree.blocks_sequence] at outside inside
        exact entered edge outside inside
      · rw [Tree.blocks_sequence]
        exact sums_sequenceEnds checked parts chain.apart chain.ordered

end Sequences

end GotoFree
