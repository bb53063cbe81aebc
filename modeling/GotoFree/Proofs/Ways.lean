import GotoFree.Flow.Structure
import GotoFree.Proofs.Forest

/-!
# What a `Jumps` record sums up

In a region an edge either continues a loop or is a plain one; a plain edge flows to a block of the
region or leaves the loop whose body the region is. A `Jumps` record `Sums` some ways out of blocks
if it sorts exactly these by what they mean in the region. Records of two parts sum up the ways out
of both (`Sums.union`), and the ways out of a part of the region are those that do not lead back
into it (`Leaves`).
-/

namespace GotoFree

open LoopForest

/-- An edge that continues no loop. -/
def Plain (graph : BlockGraph) (forest : LoopForest) (coord : Coord) (target : BlockId) : Prop :=
  graph.HasEdge coord target ∧ forest.continued? coord.block target = none

/-- A way out of a block that continues a loop. -/
def Continues (graph : BlockGraph) (forest : LoopForest) (coord : Coord) (loop : Loop) : Prop :=
  ∃ target, graph.HasEdge coord target ∧ forest.continued? coord.block target = some loop

/-- A coordinate along which a block is left. -/
def BlockGraph.IsWay (graph : BlockGraph) (coord : Coord) : Prop :=
  (∃ target, graph.HasEdge coord target) ∨
    (coord.branch = .exit ∧ graph.isReturning coord.block = true)

/-- A record sorts some ways out of blocks by what they mean in a region. -/
structure Sums (graph : BlockGraph) (forest : LoopForest) (around : Option Loop)
    (ways : Coord → Prop) (jumps : Jumps) : Prop where
  flow : ∀ {coord target}, (coord, target) ∈ jumps.flow ↔
    ways coord ∧ Plain graph forest coord target ∧ target ∈ blocksOf graph around
  breaks : ∀ {coord target}, jumps.breaks.get? coord = some target ↔
    ways coord ∧ Plain graph forest coord target ∧ target ∉ blocksOf graph around
  continues : ∀ {coord head}, (coord, head) ∈ jumps.continues ↔
    ways coord ∧ ∃ loop, Continues graph forest coord loop ∧
      loop ∉ Loop.flattenAll (forest.inside around) ∧ loop.head = head
  returns : ∀ {coord}, coord ∈ jumps.returns ↔
    ways coord ∧ coord.branch = .exit ∧ graph.isReturning coord.block = true

/-- A way out of some blocks that is no plain edge between them. -/
def Leaves (graph : BlockGraph) (forest : LoopForest) (blocks : List BlockId) (coord : Coord) :
    Prop :=
  coord.block ∈ blocks ∧ ∀ target, Plain graph forest coord target → target ∉ blocks

section Ways

variable {graph : BlockGraph} {forest : LoopForest} {around : Option Loop}

/-- A coordinate leads plainly to one block only. -/
theorem Plain.unique (checked : graph.Checked) {coord : Coord} {first second : BlockId}
    (left : Plain graph forest coord first) (right : Plain graph forest coord second) :
    first = second :=
  checked.target_unique left.1 right.1

/-- What leads on plainly runs no loop again. -/
theorem Plain.not_continues (checked : graph.Checked) {coord : Coord} {target : BlockId}
    {loop : Loop} (plain : Plain graph forest coord target) :
    ¬ Continues graph forest coord loop := by
  rintro ⟨other, edge, continued⟩
  rw [← checked.target_unique plain.1 edge, plain.2] at continued
  cases continued

/-- A coordinate runs one loop again only. -/
theorem Continues.unique (checked : graph.Checked) {coord : Coord} {first second : Loop}
    (left : Continues graph forest coord first) (right : Continues graph forest coord second) :
    first = second := by
  obtain ⟨target, edge, continued⟩ := left
  obtain ⟨other, edge', continued'⟩ := right
  rw [← checked.target_unique edge edge', continued] at continued'
  exact Option.some.inj continued'

/-- An edge is a plain one or continues a loop. -/
theorem plain_or_continues {coord : Coord} {target : BlockId}
    (edge : graph.HasEdge coord target) :
    Plain graph forest coord target ∨ ∃ loop, Continues graph forest coord loop := by
  cases continued : forest.continued? coord.block target with
  | none => exact .inl ⟨edge, continued⟩
  | some loop => exact .inr ⟨loop, target, edge, continued⟩

/-- What leads on plainly is a way. -/
theorem Plain.isWay {coord : Coord} {target : BlockId} (plain : Plain graph forest coord target) :
    graph.IsWay coord :=
  .inl ⟨target, plain.1⟩

/-- What runs a loop again is a way. -/
theorem Continues.isWay {coord : Coord} {loop : Loop}
    (continues : Continues graph forest coord loop) : graph.IsWay coord := by
  obtain ⟨target, edge, -⟩ := continues
  exact .inl ⟨target, edge⟩

/-- A block that is left by an edge does not return. -/
theorem not_isReturning_of_edge (checked : graph.Checked) {coord : Coord} {target : BlockId}
    (edge : graph.HasEdge coord target) : graph.isReturning coord.block = false := by
  rw [← Bool.not_eq_true]
  intro returning
  have none := checked.outEdges_of_isReturning returning
  simp [BlockGraph.HasEdge, none] at edge

namespace Sums

/-- The ways may be described in another way. -/
theorem congr {first second : Coord → Prop} {jumps : Jumps}
    (sums : Sums graph forest around first jumps)
    (same : ∀ coord, graph.IsWay coord → (first coord ↔ second coord)) :
    Sums graph forest around second jumps where
  flow {coord target} := by
    rw [sums.flow]
    exact and_congr_left fun plain => same _ plain.1.isWay
  breaks {coord target} := by
    rw [sums.breaks]
    exact and_congr_left fun plain => same _ plain.1.isWay
  continues {coord head} := by
    rw [sums.continues]
    exact and_congr_left fun ⟨_, continues, _⟩ => same _ continues.isWay
  returns {coord} := by
    rw [sums.returns]
    exact and_congr_left fun returns => same _ (.inr returns)

/-- No jumps sum up no ways. -/
theorem none : Sums graph forest around (fun _ => False) .none where
  flow := by simp [Jumps.none]
  breaks := by simp [Jumps.none]
  continues := by simp [Jumps.none]
  returns := by simp [Jumps.none]

/-- Two records together sum up the ways out of both parts. -/
theorem union {first second : Coord → Prop} {left right : Jumps}
    (one : Sums graph forest around first left) (two : Sums graph forest around second right) :
    Sums graph forest around (fun coord => first coord ∨ second coord) (left.union right) where
  flow := by
    simp only [Jumps.union, SortedSet.mem_union, one.flow, two.flow]
    exact or_and_right.symm
  breaks {coord target} := by
    simp only [Jumps.union, SortedMap.get?_union, Option.or_eq_some_iff, one.breaks, two.breaks]
    constructor
    · rintro (⟨way, exits⟩ | ⟨-, way, exits⟩)
      · exact ⟨.inr way, exits⟩
      · exact ⟨.inl way, exits⟩
    · rintro ⟨way, exits⟩
      cases found : right.breaks.get? coord with
      | none =>
          refine .inr ⟨rfl, way.resolve_right fun way => ?_, exits⟩
          have present := two.breaks.2 ⟨way, exits⟩
          simp [found] at present
      | some other =>
          obtain ⟨way, plain, -⟩ := two.breaks.1 found
          exact .inl ⟨way, exits⟩
  continues := by
    simp only [Jumps.union, SortedSet.mem_union, one.continues, two.continues]
    exact or_and_right.symm
  returns := by
    simp only [Jumps.union, SortedSet.mem_union, one.returns, two.returns]
    exact or_and_right.symm

/-- The records of several parts together sum up the ways out of all of them. -/
theorem foldl_union {trees : List Tree} {ways : Tree → Coord → Prop} {start : Jumps}
    {before : Coord → Prop} (first : Sums graph forest around before start)
    (sums : ∀ tree ∈ trees, Sums graph forest around (ways tree) tree.jumps) :
    Sums graph forest around (fun coord => before coord ∨ ∃ tree ∈ trees, ways tree coord)
      (trees.foldl (fun jumps tree => jumps.union tree.jumps) start) := by
  induction trees generalizing start before with
  | nil => exact first.congr fun coord _ => by simp
  | cons tree rest ih =>
      have more := ih (first.union (sums tree (by simp)))
        fun other member => sums other (List.mem_cons_of_mem _ member)
      exact more.congr fun coord _ => by simp [or_assoc]

/-- Leaving out the flow to some blocks leaves out the plain edges to them. -/
theorem filter_flow (checked : graph.Checked) {ways : Coord → Prop} {jumps : Jumps}
    (sums : Sums graph forest around ways jumps) {later : SortedSet BlockId}
    (inside : ∀ id ∈ later, id ∈ blocksOf graph around) :
    Sums graph forest around
      (fun coord => ways coord ∧ ∀ target, Plain graph forest coord target → target ∉ later)
      { jumps with flow := jumps.flow.filter fun edge => edge.2 ∉ later } where
  flow {coord target} := by
    simp only [SortedSet.mem_filter, sums.flow, decide_eq_true_eq]
    constructor
    · rintro ⟨⟨way, plain, among⟩, outside⟩
      exact ⟨⟨way, fun other plain' => plain.unique checked plain' ▸ outside⟩, plain, among⟩
    · rintro ⟨⟨way, outside⟩, plain, among⟩
      exact ⟨⟨way, plain, among⟩, outside target plain⟩
  breaks {coord target} := by
    rw [sums.breaks]
    constructor
    · rintro ⟨way, plain, outside⟩
      exact ⟨⟨way, fun other plain' member =>
        outside (inside _ (plain.unique checked plain' ▸ member))⟩, plain, outside⟩
    · rintro ⟨⟨way, -⟩, exits⟩
      exact ⟨way, exits⟩
  continues {coord head} := by
    rw [sums.continues]
    constructor
    · rintro ⟨way, loop, continues, rest⟩
      exact ⟨⟨way, fun other plain => absurd continues (plain.not_continues checked)⟩, loop,
        continues, rest⟩
    · rintro ⟨⟨way, -⟩, rest⟩
      exact ⟨way, rest⟩
  returns {coord} := by
    rw [sums.returns]
    constructor
    · rintro ⟨way, exit, returning⟩
      refine ⟨⟨way, fun other plain => ?_⟩, exit, returning⟩
      have not := not_isReturning_of_edge checked plain.1
      simp [returning] at not
    · rintro ⟨⟨way, -⟩, rest⟩
      exact ⟨way, rest⟩

end Sums

/-! ## The ways out of one block -/

/-- What runs a loop again leaves a block of that loop. -/
theorem mem_body_of_continues (isOf : forest.IsOf graph) {coord : Coord} {loop : Loop}
    (continues : Continues graph forest coord loop) :
    loop ∈ forest.all ∧ coord.block ∈ loop.body := by
  obtain ⟨target, -, continued⟩ := continues
  obtain ⟨known, -, holds⟩ := isOf.continued?_eq_some_iff.1 continued
  exact ⟨known, holds⟩

/-- A loop that holds a block of a region outside its loops does not lie in the region. -/
theorem not_nested_of_direct (isOf : forest.IsOf graph) (owns : forest.Owns around)
    {id : BlockId} (direct : ∀ inner ∈ forest.inside around, id ∉ inner.body) {loop : Loop}
    (holds : id ∈ loop.body) : loop ∉ Loop.flattenAll (forest.inside around) := by
  intro nested
  obtain ⟨outer, among, within⟩ := Loop.mem_flattenAll.1 nested
  rcases Loop.mem_flatten.1 within with rfl | within
  · exact direct _ among holds
  · have known := owns.mem_all (Loop.mem_flattenAll_of_mem among)
    exact direct outer among (isOf.nested_body known within holds).1

/-- The way out of a block is sorted by where it leads. -/
theorem Sums.wayOut (checked : graph.Checked) (isOf : forest.IsOf graph)
    (owns : forest.Owns around) {site : Site} (sameForest : site.forest = forest)
    (sameBlocks : site.view.region.blocks = blocksOf graph around) {coord : Coord}
    {target : BlockId} (edge : graph.HasEdge coord target)
    (direct : ∀ inner ∈ forest.inside around, coord.block ∉ inner.body) :
    Sums graph forest around (fun way => way = coord) (site.wayOut coord target) := by
  have notReturning := not_isReturning_of_edge checked edge
  unfold Site.wayOut
  rw [sameForest, sameBlocks]
  split
  · next loop continued =>
    have continues : Continues graph forest coord loop := ⟨target, edge, continued⟩
    have outside := not_nested_of_direct isOf owns direct (mem_body_of_continues isOf continues).2
    refine ⟨?_, ?_, ?_, ?_⟩
    · rintro way other
      simp only [Jumps.ofContinue, Jumps.none, SortedSet.not_mem_empty, false_iff, not_and]
      rintro rfl plain
      exact absurd continues (plain.not_continues checked)
    · rintro way other
      simp only [Jumps.ofContinue, Jumps.none, SortedMap.get?_empty, reduceCtorEq, false_iff,
        not_and]
      rintro rfl plain
      exact absurd continues (plain.not_continues checked)
    · rintro way head
      simp only [Jumps.ofContinue, SortedSet.mem_singleton, Prod.mk.injEq]
      constructor
      · rintro ⟨rfl, rfl⟩
        exact ⟨rfl, loop, continues, outside, rfl⟩
      · rintro ⟨rfl, other, continues', -, rfl⟩
        exact ⟨rfl, by rw [continues.unique checked continues']⟩
    · rintro way
      simp only [Jumps.ofContinue, Jumps.none, SortedSet.not_mem_empty, false_iff, not_and]
      rintro rfl -
      simp [notReturning]
  · next continued =>
    have plain : Plain graph forest coord target := ⟨edge, continued⟩
    split
    · next among =>
      refine ⟨?_, ?_, ?_, ?_⟩
      · rintro way other
        simp only [Jumps.ofFlow, SortedSet.mem_singleton, Prod.mk.injEq]
        constructor
        · rintro ⟨rfl, rfl⟩
          exact ⟨rfl, plain, among⟩
        · rintro ⟨rfl, plain', -⟩
          exact ⟨rfl, plain'.unique checked plain⟩
      · rintro way other
        simp only [Jumps.ofFlow, Jumps.none, SortedMap.get?_empty, reduceCtorEq, false_iff,
          not_and, not_not]
        rintro rfl plain'
        exact plain.unique checked plain' ▸ among
      · rintro way head
        simp only [Jumps.ofFlow, Jumps.none, SortedSet.not_mem_empty, false_iff, not_and]
        rintro rfl ⟨loop, continues, -⟩
        exact plain.not_continues checked continues
      · rintro way
        simp only [Jumps.ofFlow, Jumps.none, SortedSet.not_mem_empty, false_iff, not_and]
        rintro rfl -
        simp [notReturning]
    · next outside =>
      refine ⟨?_, ?_, ?_, ?_⟩
      · rintro way other
        simp only [Jumps.ofBreak, Jumps.none, SortedSet.not_mem_empty, false_iff, not_and]
        rintro rfl plain'
        exact plain.unique checked plain' ▸ outside
      · rintro way other
        simp only [Jumps.ofBreak, SortedMap.get?_insert, SortedMap.get?_empty,
          Option.ite_none_right_eq_some, Option.some.injEq]
        constructor
        · rintro ⟨rfl, rfl⟩
          exact ⟨rfl, plain, outside⟩
        · rintro ⟨rfl, plain', -⟩
          exact ⟨rfl, plain.unique checked plain'⟩
      · rintro way head
        simp only [Jumps.ofBreak, Jumps.none, SortedSet.not_mem_empty, false_iff, not_and]
        rintro rfl ⟨loop, continues, -⟩
        exact plain.not_continues checked continues
      · rintro way
        simp only [Jumps.ofBreak, Jumps.none, SortedSet.not_mem_empty, false_iff, not_and]
        rintro rfl -
        simp [notReturning]

/-- The ways out of a block that no edge leaves. -/
theorem Sums.endWay {id : BlockId} (last : graph.outEdges id = []) :
    Sums graph forest around (fun way => way = ⟨id, .exit⟩)
      (if graph.isReturning id then .ofReturn ⟨id, .exit⟩ else .none) := by
  have noEdge {target : BlockId} : ¬ graph.HasEdge ⟨id, .exit⟩ target := by
    simp [BlockGraph.HasEdge, last]
  have sums {jumps : Jumps} (flow : jumps.flow = .empty) (breaks : jumps.breaks = .empty)
      (continues : jumps.continues = .empty)
      (returns : ∀ way, way ∈ jumps.returns ↔
        way = (⟨id, .exit⟩ : Coord) ∧ graph.isReturning id = true) :
      Sums graph forest around (fun way => way = ⟨id, .exit⟩) jumps := by
    refine ⟨?_, ?_, ?_, ?_⟩
    · rintro way target
      simp only [flow, SortedSet.not_mem_empty, false_iff, not_and]
      rintro rfl plain
      exact absurd plain.1 noEdge
    · rintro way target
      simp only [breaks, SortedMap.get?_empty, reduceCtorEq, false_iff, not_and]
      rintro rfl plain
      exact absurd plain.1 noEdge
    · rintro way head
      simp only [continues, SortedSet.not_mem_empty, false_iff, not_and]
      rintro rfl ⟨loop, ⟨target, edge, -⟩, -⟩
      exact noEdge edge
    · rintro way
      rw [returns]
      exact and_congr_right fun same => by simp [same]
  split
  · next returning => exact sums rfl rfl rfl (by simp [Jumps.ofReturn, returning])
  · next silent => exact sums rfl rfl rfl (by simp [Jumps.none, silent])

/-! ## The ways out of a loop -/

/-- In the region of a loop no plain edge leaves the body and stays in it. -/
theorem Sums.flow_isEmpty {loop : Loop} {blocks : List BlockId} {jumps : Jumps}
    (sums : Sums graph forest (some loop) (Leaves graph forest blocks) jumps)
    (whole : ∀ id, id ∈ blocks ↔ id ∈ loop.body) : jumps.flow.isEmpty = true := by
  rw [SortedSet.isEmpty_iff]
  rintro ⟨coord, target⟩ member
  obtain ⟨⟨-, leaves⟩, plain, inside⟩ := sums.flow.1 member
  exact leaves target plain ((whole target).2 inside)

/-- Outside of all loops no way out leaves a loop. -/
theorem Sums.leavesLoop_none (checked : graph.Checked) (isOf : forest.IsOf graph)
    {ways : Coord → Prop} {jumps : Jumps} (sums : Sums graph forest .none ways jumps) :
    jumps.leavesLoop = false := by
  have noBreaks : jumps.breaks.entries = [] := by
    rw [List.eq_nil_iff_forall_not_mem]
    rintro ⟨coord, target⟩ member
    obtain ⟨-, plain, outside⟩ := sums.breaks.1 (SortedMap.get?_eq_some_iff.2 member)
    exact outside (BlockGraph.mem_idSet.2 (checked.edge_target_mem plain.1))
  have noContinues : jumps.continues.isEmpty = true := by
    rw [SortedSet.isEmpty_iff]
    rintro ⟨coord, head⟩ member
    obtain ⟨-, loop, continues, outside, -⟩ := sums.continues.1 member
    exact outside (mem_body_of_continues isOf continues).1
  simp [Jumps.leavesLoop, SortedMap.isEmpty, noBreaks, noContinues]

/-- The jumps of a loop sum up what leaves its body, as the region around it sees them. -/
theorem Sums.loopJumps (checked : graph.Checked) (isOf : forest.IsOf graph)
    (owns : forest.Owns around) {loop : Loop} (nested : loop ∈ forest.inside around)
    {blocks : List BlockId} (whole : ∀ id, id ∈ blocks ↔ id ∈ loop.body) {jumps : Jumps}
    (sums : Sums graph forest (some loop) (Leaves graph forest blocks) jumps) :
    Sums graph forest around (Leaves graph forest blocks) (loopJumps around loop jumps) := by
  have stays {target : BlockId} (known : target ∈ graph.ids) :
      (around.all fun outer => target ∈ outer.body) = true ↔ target ∈ blocksOf graph around := by
    cases around with
    | none => simp [blocksOf, known]
    | some outer => simp [blocksOf]
  have exits {coord : Coord} {target : BlockId} : (coord, target) ∈ jumps.breaks.entries ↔
      Leaves graph forest blocks coord ∧ Plain graph forest coord target := by
    rw [← SortedMap.get?_eq_some_iff, sums.breaks]
    refine and_congr_right fun leaves => and_iff_left_of_imp fun plain inside => ?_
    exact leaves.2 target plain ((whole target).2 inside)
  have isLoop := owns.mem_all (Loop.mem_flattenAll_of_mem nested)
  refine ⟨?_, ?_, ?_, ?_⟩
  · intro coord target
    simp only [GotoFree.loopJumps, SortedSet.mem_ofList, List.mem_filter, exits, and_assoc]
    exact and_congr_right fun _ => and_congr_right fun plain =>
      stays (checked.edge_target_mem plain.1)
  · intro coord target
    have distinct : ((jumps.breaks.entries.filter fun edge =>
        !(around.all fun outer => edge.2 ∈ outer.body)).map Prod.fst).Nodup :=
      jumps.breaks.nodup_keys.sublist (List.filter_sublist.map _)
    simp only [GotoFree.loopJumps, SortedMap.get?_ofList distinct, List.mem_filter, exits,
      and_assoc, Bool.not_eq_true', ← Bool.not_eq_true]
    exact and_congr_right fun _ => and_congr_right fun plain =>
      not_congr (stays (checked.edge_target_mem plain.1))
  · intro coord head
    simp only [GotoFree.loopJumps, SortedSet.mem_filter, sums.continues, decide_eq_true_eq]
    constructor
    · rintro ⟨⟨leaves, other, continues, notInner, rfl⟩, differs⟩
      refine ⟨leaves, other, continues, fun within => ?_, rfl⟩
      obtain ⟨outer, among, within⟩ := Loop.mem_flattenAll.1 within
      have holds := (mem_body_of_continues isOf continues).2
      have isOuter := owns.mem_all (Loop.mem_flattenAll_of_mem among)
      have inOuter : coord.block ∈ outer.body := by
        rcases Loop.mem_flatten.1 within with rfl | within
        · exact holds
        · exact (isOf.nested_body isOuter within holds).1
      have same := (isOf.split_inside owns).eq_of_mem among nested inOuter
        ((whole _).1 leaves.1)
      subst same
      rcases Loop.mem_flatten.1 within with rfl | within
      · exact differs rfl
      · exact notInner within
    · rintro ⟨leaves, other, continues, outside, rfl⟩
      have isOther := (mem_body_of_continues isOf continues).1
      refine ⟨⟨leaves, other, continues, fun within => outside ?_, rfl⟩, fun same => outside ?_⟩
      · exact Loop.mem_flattenAll_of_inner (Loop.mem_flattenAll_of_mem nested) within
      · exact isOf.eq_of_head isOther isLoop same ▸ Loop.mem_flattenAll_of_mem nested
  · intro coord
    exact sums.returns

end Ways

end GotoFree
