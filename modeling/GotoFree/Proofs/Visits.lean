import GotoFree.Proofs.Nesting
import GotoFree.Proofs.Simulation

/-!
# The blocks that a run visits

Under the same outcomes of its branches, the marked tree of a graph visits the blocks that the
graph visits, in their order and over any number of visits, and returns when the graph does
(`BlockGraph.exists_marked_visits`).
-/

namespace GotoFree

open LoopForest

namespace BlockGraph

/-- The blocks that a graph visits from a block on, over a number of visits, and whether it has
returned by then. Each branch takes the next outcome. -/
def visits (graph : BlockGraph) (outcomes : Nat → Bool) :
    Nat → Nat → BlockId → List BlockId × Bool
  | 0, _, _ => ([], false)
  | count + 1, position, id =>
      match graph.outEdges id with
      | [] => ([id], graph.isReturning id)
      | [(_, target)] =>
          let (later, returned) := visits graph outcomes count position target
          (id :: later, returned)
      | (_, taken) :: (_, notTaken) :: _ =>
          let target := if outcomes position then taken else notTaken
          let (later, returned) := visits graph outcomes count (position + 1) target
          (id :: later, returned)

end BlockGraph

/-- What is known of a run that counts its visits. -/
structure Visiting where
  /-- The number of visits before the run is given up. -/
  left : Nat
  /-- The number of outcomes taken. -/
  position : Nat
  visited : List BlockId

/-- What a block of a graph does in a run that counts its visits: a block that ends in a return
returns, one that branches takes the next outcome, and another is left along its exit. -/
def BlockGraph.visit (graph : BlockGraph) (outcomes : Nat → Bool) (id : BlockId) :
    Visiting → Option (Event Visiting Unit)
  | ⟨0, position, visited⟩ => some (.stops ⟨0, position, visited⟩)
  | ⟨left + 1, position, visited⟩ =>
      if graph.isReturning id then some (.returns () ⟨left, position, visited ++ [id]⟩)
      else if graph.isBranching id then
        some (.along (if outcomes position then .taken else .notTaken)
          ⟨left, position + 1, visited ++ [id]⟩)
      else some (.along .exit ⟨left, position, visited ++ [id]⟩)

/-- The visits of a run that is over, and whether it has returned. -/
def Exit.trace : Exit Visiting Unit → List BlockId × Bool
  | .ends value _ after => (after.visited, value.isSome)
  | .stops after => (after.visited, false)

/-- The blocks that the marked tree of a graph visits, over a number of visits and up to a depth of
calls, and whether it has returned by then. -/
def Tree.visits (tree : Tree) (graph : BlockGraph) (flags : Flags) (outcomes : Nat → Bool)
    (depth count : Nat) : Option (List BlockId × Bool) :=
  let runner : Runner Visiting Unit := ⟨graph.entry, flags, graph.visit outcomes⟩
  (runner.start depth tree ⟨count, 0, []⟩).map Exit.trace

section Visits

variable {graph : BlockGraph} {outcomes : Nat → Bool}

/-- Visits of blocks serve their graph. -/
theorem serves_visit : Serves (graph.visit outcomes) graph where
  exit_iff {id state branch after} event := by
    obtain ⟨left, position, visited⟩ := state
    cases left with
    | zero => simp [BlockGraph.visit] at event
    | succ left =>
        simp only [BlockGraph.visit] at event
        split at event
        · cases event
        · split at event
          · next branching =>
            cases event
            rw [branching]
            cases outcomes position <;> simp
          · next straight =>
            cases event
            simpa using straight
  returning {id state value after} event := by
    obtain ⟨left, position, visited⟩ := state
    cases left with
    | zero => simp [BlockGraph.visit] at event
    | succ left =>
        simp only [BlockGraph.visit] at event
        split at event
        · next returning => exact returning
        · split at event <;> cases event

/-- The visits at the end of a run of a graph. -/
def Final.trace : Final Visiting Unit → List BlockId × Bool
  | .returned _ after => (after.visited, true)
  | .stopped after => (after.visited, false)

/-- A run that counts its visits ends with the visits of the graph. -/
theorem exists_run_visit (checked : graph.Checked)
    (ends : ∀ id ∈ graph.ids, graph.outEdges id = [] → graph.isReturning id = true)
    {count position : Nat} {id : BlockId} (known : id ∈ graph.ids) {visited : List BlockId} :
    ∃ final, graph.run (graph.visit outcomes) (count + 1) id ⟨count, position, visited⟩ =
        some final ∧
      final.trace = (visited ++ (graph.visits outcomes count position id).1,
        (graph.visits outcomes count position id).2) := by
  induction count generalizing position id visited with
  | zero => exact ⟨.stopped ⟨0, position, visited⟩, rfl, by simp [Final.trace, BlockGraph.visits]⟩
  | succ count ih =>
      have follow {branch : Branch} {target : BlockId} {position : Nat}
          (edge : graph.HasEdge ⟨id, branch⟩ target) :=
        And.intro (checked.target?_eq_some_iff.2 edge)
          (@ih position target (checked.edge_target_mem edge) (visited ++ [id]))
      rw [BlockGraph.run]
      cases branching : graph.isBranching id with
      | true =>
          obtain ⟨taken, notTaken, edges⟩ := checked.outEdges_of_isBranching branching
          have onward : graph.isReturning id = false := by
            rw [← Bool.not_eq_true]
            intro returning
            simp [checked.outEdges_of_isReturning returning] at edges
          cases outcome : outcomes position with
          | true =>
              have edge : graph.HasEdge ⟨id, .taken⟩ taken := by simp [BlockGraph.HasEdge, edges]
              obtain ⟨found, final, run, same⟩ := @follow .taken taken (position + 1) edge
              refine ⟨final, ?_, ?_⟩
              · simp [BlockGraph.visit, onward, branching, outcome, found, run]
              · simp [BlockGraph.visits, edges, outcome, same]
          | false =>
              have edge : graph.HasEdge ⟨id, .notTaken⟩ notTaken := by
                simp [BlockGraph.HasEdge, edges]
              obtain ⟨found, final, run, same⟩ := @follow .notTaken notTaken (position + 1) edge
              refine ⟨final, ?_, ?_⟩
              · simp [BlockGraph.visit, onward, branching, outcome, found, run]
              · simp [BlockGraph.visits, edges, outcome, same]
      | false =>
          rcases checked.outEdges_of_not_isBranching branching with edges | ⟨target, edges⟩
          · have returning := ends id known edges
            simp [BlockGraph.visit, BlockGraph.visits, returning, edges, Final.trace]
          · have onward : graph.isReturning id = false := by
              rw [← Bool.not_eq_true]
              intro returning
              simp [checked.outEdges_of_isReturning returning] at edges
            have edge : graph.HasEdge ⟨id, .exit⟩ target := by simp [BlockGraph.HasEdge, edges]
            obtain ⟨found, final, run, same⟩ := @follow .exit target position edge
            refine ⟨final, ?_, ?_⟩
            · simp [BlockGraph.visit, onward, branching, found, run]
            · simp [BlockGraph.visits, edges, same]

end Visits

/-- A graph whose blocks without successors end in a return is structured and marked, and its tree
visits the same blocks as the graph under all outcomes of its branches, over any number of visits,
and returns when the graph does. -/
theorem BlockGraph.exists_marked_visits {entry : BlockId} {blocks : List Block}
    {graph : BlockGraph} (built : BlockGraph.ofBlocks entry blocks = .ok graph)
    (ends : ∀ id ∈ graph.ids, graph.outEdges id = [] → graph.isReturning id = true) :
    ∃ found tree flags, graph.toStructured = .ok found ∧
      found.root.marked found.recursing = .ok (tree, flags) ∧
      ∀ (outcomes : Nat → Bool) (count : Nat) (trace : List BlockId × Bool),
        (∃ depth, tree.visits graph flags outcomes depth count = some trace) ↔
          trace = graph.visits outcomes count 0 graph.entry := by
  have checked := BlockGraph.checked_ofBlocks built
  obtain ⟨found, made, -, structured⟩ := checked.exists_toStructured
  obtain ⟨tree, flags, marked, isMarked⟩ := structured.exists_marked checked
  refine ⟨found, tree, flags, made, marked, fun outcomes count trace => ?_⟩
  obtain ⟨final, run, same⟩ := @exists_run_visit graph outcomes checked ends count 0 graph.entry
    checked.entry_mem []
  let runner : Runner Visiting Unit := ⟨graph.entry, flags, graph.visit outcomes⟩
  obtain ⟨exit, ⟨depth, settled⟩, isEnd⟩ :=
    @IsMarkedTree.exists_start _ _ graph found.forest tree runner checked structured.isOf isMarked
      serves_visit rfl _ _ _ run
  have traces : exit.trace = graph.visits outcomes count 0 graph.entry := by
    rw [List.nil_append] at same
    refine Eq.trans ?_ same
    cases isEnd <;> rfl
  constructor
  · rintro ⟨other, ran⟩
    obtain ⟨exit', started, rfl⟩ := Option.map_eq_some_iff.1 ran
    -- Both runs end in the same way with the greater one of the two depths.
    have one := Runner.start_mono (Nat.le_max_left other depth) started
    have two := settled (max other depth) (Nat.le_max_right other depth)
    rw [← traces, Option.some.inj (one.symm.trans two)]
  · rintro rfl
    refine ⟨depth, Option.map_eq_some_iff.2 ⟨exit, settled depth (Nat.le_refl _), traces⟩⟩

/-- The tree of a spinning graph visits what the graph visits. -/
theorem BlockGraph.exists_marked_visits_spinning : ∃ graph,
    BlockGraph.ofBlocks ⟨0⟩ spinningBlocks = .ok graph ∧
      (∀ id ∈ graph.ids, graph.outEdges id = [] → graph.isReturning id = true) ∧
      ∃ found tree flags, graph.toStructured = .ok found ∧
        found.root.marked found.recursing = .ok (tree, flags) ∧
        ∃ depth, tree.visits graph flags (· < 2) depth 9 =
          some ([⟨0⟩, ⟨1⟩, ⟨1⟩, ⟨1⟩, ⟨2⟩], true) := by
  let graph := BlockGraph.reachedPart ⟨0⟩
    (.ofList (spinningBlocks.map fun block => (block.id, block)))
  have built : BlockGraph.ofBlocks ⟨0⟩ spinningBlocks = .ok graph := rfl
  have ends : ∀ id ∈ graph.ids, graph.outEdges id = [] → graph.isReturning id = true := by decide
  have passed : graph.visits (· < 2) 9 0 graph.entry = ([⟨0⟩, ⟨1⟩, ⟨1⟩, ⟨1⟩, ⟨2⟩], true) := by
    decide
  obtain ⟨found, tree, flags, made, marked, same⟩ := BlockGraph.exists_marked_visits built ends
  exact ⟨graph, built, ends, found, tree, flags, made, marked, (same _ _ _).2 passed.symm⟩

end GotoFree
