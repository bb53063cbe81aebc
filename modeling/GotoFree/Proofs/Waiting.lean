import GotoFree.Proofs.Simulation

/-!
# What waits for flags

A marked tree reads the control cell where a gate, the code after a loop or a merge waits for
flags. Each of these waits for a coordinate that is recorded, so there is a control cell.
-/

namespace GotoFree

open LoopForest

/-- An edge leads to every block of a graph but its entry. -/
theorem BlockGraph.Checked.exists_inCoord {graph : BlockGraph} (checked : graph.Checked)
    {id : BlockId} (known : id ∈ graph.ids) (other : id ≠ graph.entry) :
    ∃ coord, coord ∈ graph.inCoords id := by
  rcases Relation.ReflTransGen.cases_tail (checked.reached known) with same | ⟨source, -, step⟩
  · exact absurd same other
  · obtain ⟨coord, -, edge⟩ := checked.mem_next_iff.1 step
    exact ⟨coord, checked.mem_inCoords_iff.2 edge⟩

section Waiting

variable {graph : BlockGraph} {forest : LoopForest} {around : Option Loop} {recorded : CoordSet}

/-- An element that follows others is led to by an edge that is on its way there. -/
theorem Chain.exists_onItsWay {front rest : List Tree} {tree : Tree}
    (chain : Chain graph forest (front ++ tree :: rest)) (started : front ≠ [])
    (inside : ∀ id ∈ tree.blocks, id ∈ blocksOf graph around) :
    ∃ coord target, OnItsWay graph forest around (front.flatMap Tree.blocks) coord target := by
  obtain ⟨coord, target, plain, ⟨earlier, among, source⟩, here⟩ :=
    chain.reached front tree rest rfl started
  refine ⟨coord, target, plain, inside target here, List.mem_flatMap.2 ⟨earlier, among, source⟩, ?_⟩
  intro before
  obtain ⟨former, isFormer, holds⟩ := List.mem_flatMap.1 before
  exact (List.pairwise_append.1 chain.apart).2.2 former isFormer tree (by simp) target holds here

/-- An element with a gate waits for a coordinate that is recorded. -/
theorem Chain.exists_recorded {front elems : List Tree}
    (chain : Chain graph forest (front ++ elems)) (started : front ≠ [])
    (inside : ∀ tree ∈ elems, ∀ id ∈ tree.blocks, id ∈ blocksOf graph around)
    (gated : AllGated graph forest recorded around (front.flatMap Tree.blocks) elems) :
    ∀ tree ∈ elems, ∀ coords, tree.notes.gateOn = some coords → ∃ coord, coord ∈ recorded := by
  induction elems generalizing front with
  | nil => simp
  | cons first rest ih =>
      intro tree member coords gate
      rcases List.mem_cons.1 member with rfl | later
      · obtain ⟨coord, target, way⟩ := chain.exists_onItsWay started (inside tree member)
        exact ⟨coord, (gated.1.gated coords gate coord target way).1⟩
      · refine ih (show Chain graph forest ((front ++ [first]) ++ rest) by simpa using chain)
          (by simp) (fun other among => inside other (List.mem_cons_of_mem _ among)) ?_ tree later
          coords gate
        rw [List.flatMap_append, List.flatMap_singleton]
        exact gated.2

/-- The elements of a sequence with gates wait for coordinates that are recorded. -/
theorem exists_recorded_of_gate {label : Label} {first : Tree} {rest : List Tree}
    (part : IsPartOf graph forest around (.sequence label (first :: rest)))
    (noted : Noted graph forest recorded around (.sequence label (first :: rest)))
    (chain : Chain graph forest (first :: rest)) :
    ∀ tree ∈ first :: rest, ∀ coords, tree.notes.gateOn = some coords →
      ∃ coord, coord ∈ recorded := by
  intro tree member coords gate
  rcases List.mem_cons.1 member with rfl | later
  · cases noted.1.symm.trans gate
  · refine Chain.exists_recorded (show Chain graph forest ([first] ++ rest) from chain) (by simp)
      (fun other among id holds => part.inside id ?_) ?_ tree later coords gate
    · rw [Tree.blocks_sequence]
      exact List.mem_flatMap.2 ⟨other, List.mem_cons_of_mem _ among, holds⟩
    · rw [List.flatMap_singleton]
      exact noted.2

/-- The exits of a loop that the code after it waits for are recorded. -/
theorem recorded_of_exit (isOf : forest.IsOf graph) (owns : forest.Owns around) {flags : Flags}
    (areOf : flags.AreOf graph forest) {label : Label} {loop : Loop} {body : Tree}
    (part : IsPartOf graph forest around (.loop label loop.entries body))
    (nested : loop ∈ forest.inside around) (whole : ∀ id, id ∈ body.blocks ↔ id ∈ loop.body)
    {coord : Coord} (exits : coord ∈ recursingExits label.jumps (around.map Loop.head) ∨
      coord ∈ leavingExits label.jumps (around.map Loop.head)) : coord ∈ flags.recorded := by
  have sums : Sums graph forest around (Leaves graph forest body.blocks) label.jumps :=
    Tree.blocks_loop ▸ part.ways
  have isLoop := owns.mem_all (Loop.mem_flattenAll_of_mem nested)
  have continuing {head : BlockId} (member : (coord, head) ∈ label.jumps.continues) :
      coord ∈ flags.recorded := by
    obtain ⟨leaves, other, continues, outside, -⟩ := sums.continues.1 member
    exact areOf.escapes coord
      (escapes_of_continues isOf owns nested ((whole _).1 leaves.1) continues outside).1
  rcases exits with recursing | leaving
  · obtain ⟨head, member, -⟩ := mem_recursingExits.1 recursing
    exact continuing member
  · rcases mem_leavingExits.1 leaving with ⟨head, member, -⟩ | ⟨target, isBreak⟩ | returned
    · exact continuing member
    · obtain ⟨leaves, plain, outside⟩ := sums.breaks.1 isBreak
      refine areOf.escapes coord (escapes_of_exit isOf isLoop ((whole _).1 leaves.1) plain ?_)
      exact fun within => leaves.2 target plain ((whole _).2 within)
    · obtain ⟨leaves, returns⟩ := sums.returns.1 returned
      obtain ⟨inner, innermost, -⟩ := exists_innermost isOf isLoop ((whole _).1 leaves.1)
      exact areOf.returns coord (by simp [innermost]) returns

/-- A merge waits for coordinates that are recorded. -/
theorem exists_recorded_of_merge (checked : graph.Checked) (isOf : forest.IsOf graph)
    (owns : forest.Owns around) {label : Label} {alternatives : List Tree} {incoming : Incoming}
    (part : IsPartOf graph forest around (.merge label alternatives incoming))
    (noted : Noted graph forest recorded around (.merge label alternatives incoming))
    (several : ∀ id ∈ Tree.headsOfAll alternatives,
      ∃ other ∈ Tree.headsOfAll alternatives, other ≠ id)
    (incoming_iff : ∀ entry coords, incoming.get? entry = some coords ↔
      entry ∈ Tree.headsOfAll alternatives ∧ coords = .ofList (graph.inCoords entry)) :
    ∃ coord, coord ∈ recorded := by
  -- One of the heads is not the entry of the graph, so an edge leads to it.
  obtain ⟨head, isHead, notEntry⟩ : ∃ head ∈ Tree.headsOfAll alternatives, head ≠ graph.entry := by
    by_cases isEntry : label.head = graph.entry
    · obtain ⟨other, isOther, differ⟩ := several label.head part.head_mem
      exact ⟨other, isOther, isEntry ▸ differ⟩
    · exact ⟨label.head, part.head_mem, isEntry⟩
  obtain ⟨coord, leads⟩ := checked.exists_inCoord
    (isOf.blocksOf_known owns (part.inside head (part.heads_mem head isHead))) notEntry
  exact ⟨coord, noted.2 head _ ((incoming_iff head _).2 ⟨isHead, rfl⟩) coord
    (SortedSet.mem_ofList.2 leads)⟩

end Waiting

end GotoFree
