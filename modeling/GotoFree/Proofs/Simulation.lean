import GotoFree.Proofs.Marking
import GotoFree.Proofs.Running

/-!
# A marked tree runs as its graph

Wherever control arrives at a part of a marked tree, the tree does what the graph does from there
on (`Runner.follows`). The invariant is about the control cell: control falls out of a part along a
plain edge, and if that edge is recorded it was recorded last; control leaves the function of a loop
along an edge out of the loop, or after a return in it, and that was recorded last.
-/

namespace GotoFree

open LoopForest

/-! ## Computations with a depth of calls -/

section Settling

variable {α β : Type}

/-- A computation answers the same with every depth that is great enough. -/
def Settles (compute : Nat → Option α) (value : α) : Prop :=
  ∃ depth, ∀ deeper, depth ≤ deeper → compute deeper = some value

namespace Settles

theorem const (value : α) : Settles (fun _ => some value) value := ⟨0, fun _ _ => rfl⟩

/-- What settles may be computed in another way. -/
theorem congr {first second : Nat → Option α} {value : α} (settles : Settles first value)
    (same : ∀ depth, second depth = first depth) : Settles second value :=
  (funext same : second = first) ▸ settles

/-- A change of what settles settles. -/
theorem map {compute : Nat → Option α} {value : α} (settles : Settles compute value)
    (change : α → β) : Settles (fun depth => (compute depth).map change) (change value) := by
  obtain ⟨depth, settled⟩ := settles
  refine ⟨depth, fun deeper below => ?_⟩
  dsimp only
  rw [settled deeper below, Option.map_some]

/-- Two computations settle one after the other. -/
theorem bind {compute : Nat → Option α} {value : α} (settles : Settles compute value)
    {rest : Nat → α → Option β} {result : β}
    (later : Settles (fun depth => rest depth value) result) :
    Settles (fun depth => (compute depth).bind (rest depth)) result := by
  obtain ⟨depth, settled⟩ := settles
  obtain ⟨other, answers⟩ := later
  refine ⟨max depth other, fun deeper below => ?_⟩
  dsimp only at answers ⊢
  rw [settled deeper (by omega), Option.bind_some, answers deeper (by omega)]

end Settles

end Settling

/-! ## The invariant -/

section Invariant

variable {σ ρ : Type}

/-- A block is left along an arm if it branches and along its exit if it does not, and only a block
that ends in a return returns. -/
structure Serves (exec : BlockId → σ → Option (Event σ ρ)) (graph : BlockGraph) : Prop where
  exit_iff : ∀ {id state branch after}, exec id state = some (.along branch after) →
    (branch = .exit ↔ graph.isBranching id = false)
  returning : ∀ {id state value after}, exec id state = some (.returns value after) →
    graph.isReturning id = true

/-- Control has come to one of some heads: the only one, that of the method at its start, or the
target of an edge that was recorded last if it is recorded at all. -/
inductive Arrived (graph : BlockGraph) (recorded : CoordSet) (cell : Cell)
    (heads : SortedSet BlockId) (id : BlockId) : Prop where
  | only (single : ∀ other ∈ heads, other = id)
  | start (blank : cell = none) (first : id = graph.entry)
  | along (coord : Coord) (edge : graph.HasEdge coord id)
      (kept : coord ∈ recorded → cell = some coord)

/-- The function around a region is left as the graph goes on: along an edge out of the loop, or
with the end of the run. -/
inductive Ends (graph : BlockGraph) (exec : BlockId → σ → Option (Event σ ρ))
    (around : Option Loop) (steps : Nat) (final : Final σ ρ) : Exit σ ρ → Prop where
  | out {loop : Loop} {coord : Coord} {target : BlockId} {fewer : Nat} {after : σ}
      (isAround : around = some loop) (source : coord.block ∈ loop.body)
      (edge : graph.HasEdge coord target) (outside : target ∉ loop.body) (below : fewer < steps)
      (run : graph.run exec fewer target after = some final) :
      Ends graph exec around steps final (.ends none (some coord) after)
  | returned {value : ρ} {cell : Cell} {after : σ} (same : final = .returned value after)
      (kept : ∀ loop ∈ around, ∃ coord, cell = some coord ∧ coord.block ∈ loop.body ∧
        graph.IsReturn coord) :
      Ends graph exec around steps final (.ends (some value) cell after)
  | stopped {after : σ} (same : final = .stopped after) :
      Ends graph exec around steps final (.stops after)

/-- Control comes out of a part of a region as the graph goes on: it falls out along one of some
plain edges of the region, or leaves the function around. -/
inductive Comes (graph : BlockGraph) (forest : LoopForest)
    (exec : BlockId → σ → Option (Event σ ρ)) (recorded : CoordSet) (around : Option Loop)
    (ways : Coord → Prop) (steps : Nat) (final : Final σ ρ) : Outcome σ ρ → Prop where
  | falls {coord : Coord} {target : BlockId} {cell : Cell} {fewer : Nat} {after : σ}
      (way : ways coord) (plain : Plain graph forest coord target)
      (inside : target ∈ blocksOf graph around) (kept : coord ∈ recorded → cell = some coord)
      (below : fewer < steps) (run : graph.run exec fewer target after = some final) :
      Comes graph forest exec recorded around ways steps final (.falls cell after)
  | leaves {exit : Exit σ ρ} (ends : Ends graph exec around steps final exit) :
      Comes graph forest exec recorded around ways steps final (.leaves exit)

/-- The body of the loop around a region; there is none around the region of the method. -/
inductive BodyOf (graph : BlockGraph) (forest : LoopForest) (recorded : CoordSet) :
    Option Loop → Option Tree → Prop where
  | none : BodyOf graph forest recorded none none
  | some {loop : Loop} {body : Tree}
      (fits : Fits graph forest (Noted graph forest recorded) (some loop) body)
      (heads : body.heads = loop.entries)
      (whole : ∀ id, id ∈ body.blocks ↔ id ∈ loop.body) :
      BodyOf graph forest recorded (some loop) (some body)

/-- What comes out of a part of a region with every depth of calls that is great enough is as the
graph goes on. -/
def Runner.Tracks (runner : Runner σ ρ) (graph : BlockGraph) (forest : LoopForest)
    (around : Option Loop) (ways : Coord → Prop) (steps : Nat) (final : Final σ ρ)
    (compute : Nat → Option (Outcome σ ρ)) : Prop :=
  ∃ out, Settles compute out ∧
    Comes graph forest runner.exec runner.flags.recorded around ways steps final out

/-- A runner follows a graph over a number of blocks: wherever control arrives at a part of a
marked tree, it comes out of it as the graph goes on. -/
def Runner.Follows (runner : Runner σ ρ) (graph : BlockGraph) (forest : LoopForest)
    (steps : Nat) : Prop :=
  ∀ {around : Option Loop} {tree : Tree} {body : Option Tree}, forest.Owns around →
    Fits graph forest (Noted graph forest runner.flags.recorded) around tree →
    BodyOf graph forest runner.flags.recorded around body →
    ∀ {id : BlockId} {cell : Cell} {state : σ} {final : Final σ ρ}, id ∈ tree.heads →
      Arrived graph runner.flags.recorded cell tree.heads id →
      graph.run runner.exec steps id state = some final →
      runner.Tracks graph forest around (Leaves graph forest tree.blocks) steps final
        fun depth => tree.run runner (runner.enter depth) body cell state

variable {graph : BlockGraph} {forest : LoopForest} {around : Option Loop} {recorded : CoordSet}
  {exec : BlockId → σ → Option (Event σ ρ)}

/-- An end that was reached within some steps is reached within more. -/
theorem Ends.mono {fewer steps : Nat} {final : Final σ ρ} {exit : Exit σ ρ}
    (ends : Ends graph exec around fewer final exit) (below : fewer ≤ steps) :
    Ends graph exec around steps final exit := by
  cases ends with
  | out isAround source edge outside less run =>
      exact .out isAround source edge outside (Nat.lt_of_lt_of_le less below) run
  | returned same kept => exact .returned same kept
  | stopped same => exact .stopped same

/-- What comes out within some steps comes out within more. -/
theorem Comes.mono {fewer steps : Nat} {final : Final σ ρ} {out : Outcome σ ρ}
    {ways others : Coord → Prop}
    (comes : Comes graph forest exec recorded around ways fewer final out)
    (more : ∀ coord, ways coord → others coord) (below : fewer ≤ steps) :
    Comes graph forest exec recorded around others steps final out := by
  cases comes with
  | falls way plain inside kept less run =>
      exact .falls (more _ way) plain inside kept (Nat.lt_of_lt_of_le less below) run
  | leaves ends => exact .leaves (ends.mono below)

/-- A coordinate leads where its edge does. -/
theorem BlockGraph.Checked.target?_eq_some_iff (checked : graph.Checked) {coord : Coord}
    {target : BlockId} : graph.target? coord = some target ↔ graph.HasEdge coord target := by
  unfold BlockGraph.target?
  constructor
  · intro found
    obtain ⟨front, back, listed, -⟩ := List.lookup_eq_some_iff.1 found
    simp [BlockGraph.HasEdge, listed]
  · intro edge
    cases found : (graph.outEdges coord.block).lookup coord with
    | none => exact absurd (List.lookup_eq_none_iff.1 found _ edge) (by simp)
    | some other =>
        obtain ⟨front, back, listed, -⟩ := List.lookup_eq_some_iff.1 found
        have another : graph.HasEdge coord other := by simp [BlockGraph.HasEdge, listed]
        rw [checked.target_unique another edge]

/-- The first block of a run that ends: the run goes on behind it, or ends there. -/
theorem BlockGraph.Checked.exists_step (checked : graph.Checked) {steps : Nat} {id : BlockId}
    {state : σ} {final : Final σ ρ} (run : graph.run exec steps id state = some final) :
    (∃ fewer branch after target, fewer < steps ∧ exec id state = some (.along branch after) ∧
        graph.HasEdge ⟨id, branch⟩ target ∧ graph.run exec fewer target after = some final) ∨
      (∃ value after, exec id state = some (.returns value after) ∧
        final = .returned value after) ∨
      ∃ after, exec id state = some (.stops after) ∧ final = .stopped after := by
  cases steps with
  | zero => cases run
  | succ fewer =>
      rw [BlockGraph.run] at run
      split at run
      · next branch after event =>
        split at run
        · next target found =>
          exact .inl ⟨fewer, branch, after, target, Nat.lt_succ_self _, event,
            checked.target?_eq_some_iff.1 found, run⟩
        · cases run
      · next value after event =>
          exact .inr (.inl ⟨value, after, event, (Option.some.inj run).symm⟩)
      · next after event => exact .inr (.inr ⟨after, event, (Option.some.inj run).symm⟩)
      · cases run

end Invariant

/-! ## Leaving a block -/

section Leaving

variable {σ ρ : Type} {runner : Runner σ ρ} {graph : BlockGraph} {forest : LoopForest}
  (checked : graph.Checked) (isOf : forest.IsOf graph) {steps : Nat}
  (earlier : ∀ fewer, fewer < steps → runner.Follows graph forest fewer)
  {around : Option Loop} {body : Option Tree}

omit earlier in
/-- The function of a loop does what its body does: control does not fall out of the body, which
holds all blocks of its region. -/
theorem exists_enter {loop : Loop} {inner : Tree}
    (whole : ∀ id, id ∈ inner.blocks ↔ id ∈ loop.body) {cell : Cell} {state : σ} {final : Final σ ρ}
    (tracks : runner.Tracks graph forest (some loop) (Leaves graph forest inner.blocks) steps final
      fun depth => inner.run runner (runner.enter depth) (some inner) cell state) :
    ∃ exit, Settles (fun depth => runner.enter depth inner cell state) exit ∧
      Ends graph runner.exec (some loop) steps final exit := by
  obtain ⟨out, settles, comes⟩ := tracks
  refine ⟨out.close, ?_, ?_⟩
  · obtain ⟨depth, settled⟩ := settles.map Outcome.close
    refine ⟨depth + 1, fun deeper below => ?_⟩
    obtain ⟨deeper, rfl⟩ : ∃ one, deeper = one + 1 := ⟨deeper - 1, by omega⟩
    exact settled deeper (by omega)
  · cases comes with
    | leaves ends => exact ends
    | falls way plain inside => exact absurd ((whole _).2 inside) (way.2 _ plain)

include earlier

/-- A loop whose body is run again does what the graph does from the entry to which control goes
back. -/
theorem exists_again {loop : Loop} (known : loop ∈ forest.all)
    (bodyOf : BodyOf graph forest runner.flags.recorded (some loop) body)
    {coord : Coord} {target : BlockId} (edge : graph.HasEdge coord target)
    (isEntry : target ∈ loop.entries) {cell : Cell} (kept : coord ∈ runner.flags.recorded →
      cell = some coord) {fewer : Nat} (below : fewer < steps) {state : σ} {final : Final σ ρ}
    (run : graph.run runner.exec fewer target state = some final) :
    ∃ exit, Settles (fun depth => body.bind fun body => runner.enter depth body cell state) exit ∧
      Ends graph runner.exec (some loop) steps final exit := by
  obtain - | @⟨_, inner, fits, heads, whole⟩ := bodyOf
  obtain ⟨exit, settles, ends⟩ := exists_enter whole (earlier fewer below (owns_some known) fits
    (.some fits heads whole) (heads ▸ isEntry) (.along coord edge kept) run)
  exact ⟨exit, settles, ends.mono (Nat.le_of_lt below)⟩

include checked isOf

/-- Control leaves a block of a region along a coordinate as the graph goes on. -/
theorem exists_leave (areOf : runner.flags.AreOf graph forest) (owns : forest.Owns around)
    (bodyOf : BodyOf graph forest runner.flags.recorded around body) {coord : Coord}
    (direct : forest.innermost? coord.block = around) {target : BlockId}
    (edge : graph.HasEdge coord target) {cell : Cell} {fewer : Nat} (below : fewer < steps)
    {state : σ} {final : Final σ ρ}
    (run : graph.run runner.exec fewer target state = some final) :
    runner.Tracks graph forest around (fun way => way = coord) steps final fun depth =>
      runner.leave (fun cell state => body.bind fun body => runner.enter depth body cell state)
        coord cell state := by
  have source := ((isOf.innermost?_eq_iff owns (BlockGraph.Checked.source_mem edge)).1 direct).1
  have kept (recorded : coord ∈ runner.flags.recorded) : runner.record coord cell = some coord :=
    if_pos recorded
  -- What leaves the loop around is flagged and recorded, and does not run the loop again.
  have leaves {loop : Loop} (isAround : around = some loop)
      (escapes : Escapes graph forest coord)
      (onward : ¬ Recurses graph forest coord) (outside : target ∉ loop.body) :
      runner.Tracks graph forest around (fun way => way = coord) steps final fun depth =>
        runner.leave (fun cell state => body.bind fun body => runner.enter depth body cell state)
          coord cell state := by
    have notRecursing : coord ∉ runner.flags.recursing := fun recursing =>
      onward ((areOf.recursing_iff coord).1 recursing)
    have leaving := (areOf.leaving_iff coord).2 escapes
    refine ⟨.leaves (.ends none (some coord) state), ?_, .leaves ?_⟩
    · refine (Settles.const _).congr fun depth => ?_
      rw [Runner.leave, if_neg notRecursing, if_pos leaving, kept (areOf.escapes coord escapes)]
    · subst isAround
      exact .out rfl source edge outside below run
  rcases plain_or_continues edge with plain | ⟨loop, continues⟩
  · have onward : ¬ Recurses graph forest coord := fun ⟨loop, continues, _⟩ =>
      plain.not_continues checked continues
    by_cases inside : target ∈ blocksOf graph around
    · have stays : ¬ Escapes graph forest coord := by
        rintro ⟨loop, innermost, ⟨other, plain', outside⟩ | ⟨other, continues, -⟩⟩
        · rw [direct.symm.trans innermost, plain.unique checked plain'] at inside
          exact outside inside
        · exact plain.not_continues checked continues
      refine ⟨.falls (runner.record coord cell) state, ?_, .falls rfl plain inside kept below run⟩
      refine (Settles.const _).congr fun depth => ?_
      rw [Runner.leave, if_neg fun recursing => onward ((areOf.recursing_iff coord).1 recursing),
        if_neg fun leaving => stays ((areOf.leaving_iff coord).1 leaving)]
    · cases around with
      | none => exact absurd (BlockGraph.mem_idSet.2 (checked.edge_target_mem edge)) inside
      | some loop => exact leaves rfl ⟨loop, direct, .inl ⟨target, plain, inside⟩⟩ onward inside
  · obtain ⟨known, holds⟩ := mem_body_of_continues isOf continues
    obtain ⟨inner, innermost, place⟩ := exists_innermost isOf known holds
    cases direct.symm.trans innermost
    obtain ⟨other, edge', continued⟩ := id continues
    cases checked.target_unique edge edge'
    have isEntry := (isOf.continued?_eq_some_iff.1 continued).2.1
    rcases place with rfl | nested
    · obtain ⟨exit, settles, ends⟩ := exists_again earlier known bodyOf edge isEntry
        kept below run
      refine ⟨.leaves exit, (settles.map Outcome.leaves).congr fun depth => ?_, .leaves ends⟩
      rw [Runner.leave, if_pos ((areOf.recursing_iff coord).2 ⟨inner, continues, direct⟩)]
    · have differ : loop ≠ inner := by
        rintro rfl
        exact absurd (isOf.id_lt known nested) (Nat.lt_irrefl _)
      refine leaves rfl ⟨inner, direct, .inr ⟨loop, continues, differ⟩⟩ ?_ fun within =>
        (isOf.nested_body known nested within).2 isEntry
      rintro ⟨again, itself, innermost⟩
      exact differ ((continues.unique checked itself).trans (Option.some.inj
        (innermost.symm.trans direct)))

end Leaving

/-! ## The nodes of a tree -/

section Nodes

variable {σ ρ : Type} {runner : Runner σ ρ} {graph : BlockGraph} {forest : LoopForest}
  (checked : graph.Checked) (isOf : forest.IsOf graph) {steps : Nat}
  (earlier : ∀ fewer, fewer < steps → runner.Follows graph forest fewer)
  (areOf : runner.flags.AreOf graph forest) (serves : Serves runner.exec graph)
  {around : Option Loop} {body : Option Tree} (owns : forest.Owns around)
  (bodyOf : BodyOf graph forest runner.flags.recorded around body)
  {id : BlockId} {cell : Cell} {state : σ} {final : Final σ ρ}

include checked isOf earlier areOf serves owns bodyOf

/-- A run through a block that does not branch is tracked by its node. -/
theorem tracks_jump {label : Label} (direct : forest.innermost? label.head = around)
    (straight : graph.isBranching label.head = false)
    (leaves : Leaves graph forest [label.head] ⟨label.head, .exit⟩)
    (run : graph.run runner.exec steps label.head state = some final) :
    runner.Tracks graph forest around (Leaves graph forest [label.head]) steps final fun depth =>
      (Tree.jump label ⟨label.head, .exit⟩).run runner (runner.enter depth) body cell state := by
  rcases checked.exists_step run with ⟨fewer, branch, after, target, below, event, edge, run⟩ |
    ⟨value, after, event, same⟩ | ⟨after, event, same⟩
  · cases (serves.exit_iff event).2 straight
    obtain ⟨out, settles, comes⟩ :=
      exists_leave checked isOf earlier areOf owns bodyOf direct edge below run
    refine ⟨out, settles.congr fun depth => ?_, comes.mono ?_ (Nat.le_refl _)⟩
    · rw [Tree.run, event]
    · rintro way rfl
      exact leaves
  · have returns : graph.IsReturn ⟨label.head, .exit⟩ := ⟨rfl, serves.returning event⟩
    refine ⟨.leaves (.ends (some value) (runner.record ⟨label.head, .exit⟩ cell) after),
      (Settles.const _).congr fun depth => ?_, .leaves (.returned same ?_)⟩
    · rw [Tree.run, event]
    · rintro loop rfl
      have inside := (isOf.innermost?_eq_some_iff.1 direct).2.1
      have recorded := areOf.returns ⟨label.head, .exit⟩ (by simp [direct]) returns
      exact ⟨_, if_pos recorded, inside, returns⟩
  · refine ⟨_, (Settles.const _).congr fun depth => ?_, .leaves (.stopped same)⟩
    rw [Tree.run, event]

omit serves in
/-- A run through an arm is tracked by it. -/
theorem tracks_arm {coord : Coord} {target : BlockId} {arm : Arm}
    (isArm : IsArm graph forest around coord target arm)
    (fits : ∀ tree, arm = .nested tree →
      Fits graph forest (Noted graph forest runner.flags.recorded) around tree)
    (direct : forest.innermost? coord.block = around) (edge : graph.HasEdge coord target)
    {fewer : Nat} (below : fewer < steps)
    (run : graph.run runner.exec fewer target state = some final) :
    runner.Tracks graph forest around (armWays graph forest coord arm) steps final fun depth =>
      Tree.runArm runner (runner.enter depth) body arm cell state := by
  cases isArm with
  | jump sums =>
      obtain ⟨out, settles, comes⟩ :=
        exists_leave checked isOf earlier areOf owns bodyOf direct edge below run
      exact ⟨out, settles.congr fun depth => by rw [Tree.runArm], comes⟩
  | @nested tree plain heads =>
      have only : Arrived graph runner.flags.recorded cell tree.heads target :=
        .only fun other isHead => SortedSet.mem_singleton.1 (heads ▸ isHead)
      obtain ⟨out, settles, comes⟩ := earlier fewer below owns (fits tree rfl) bodyOf
        (heads ▸ SortedSet.mem_singleton.2 rfl) only run
      exact ⟨out, settles.congr fun depth => by rw [Tree.runArm],
        comes.mono (fun _ way => way) (Nat.le_of_lt below)⟩

theorem tracks_conditional {label : Label} {taken notTaken : Arm}
    {takenTarget notTakenTarget : BlockId} (direct : forest.innermost? label.head = around)
    (edges : graph.outEdges label.head =
      [(⟨label.head, .taken⟩, takenTarget), (⟨label.head, .notTaken⟩, notTakenTarget)])
    (takenArm : IsArm graph forest around ⟨label.head, .taken⟩ takenTarget taken)
    (notTakenArm : IsArm graph forest around ⟨label.head, .notTaken⟩ notTakenTarget notTaken)
    (takenLeaves : ∀ way, armWays graph forest ⟨label.head, .taken⟩ taken way →
      Leaves graph forest (Tree.conditional label taken notTaken).blocks way)
    (notTakenLeaves : ∀ way, armWays graph forest ⟨label.head, .notTaken⟩ notTaken way →
      Leaves graph forest (Tree.conditional label taken notTaken).blocks way)
    (takenFits : ∀ tree, taken = .nested tree →
      Fits graph forest (Noted graph forest runner.flags.recorded) around tree)
    (notTakenFits : ∀ tree, notTaken = .nested tree →
      Fits graph forest (Noted graph forest runner.flags.recorded) around tree)
    (run : graph.run runner.exec steps label.head state = some final) :
    runner.Tracks graph forest around
      (Leaves graph forest (Tree.conditional label taken notTaken).blocks) steps final fun depth =>
        (Tree.conditional label taken notTaken).run runner
          (runner.enter depth) body cell state := by
  rcases checked.exists_step run with ⟨fewer, branch, after, target, below, event, edge, run⟩ |
    ⟨value, after, event, same⟩ | ⟨after, event, same⟩
  · have isEdge := edge
    rw [BlockGraph.HasEdge, edges] at isEdge
    simp only [List.mem_cons, Prod.mk.injEq, Coord.mk.injEq, true_and, List.not_mem_nil,
      or_false] at isEdge
    rcases isEdge with ⟨rfl, rfl⟩ | ⟨rfl, rfl⟩
    · obtain ⟨out, settles, comes⟩ := tracks_arm checked isOf earlier areOf owns bodyOf
        takenArm takenFits direct edge below run
      refine ⟨out, settles.congr fun depth => ?_, comes.mono takenLeaves (Nat.le_refl _)⟩
      rw [Tree.run, event]
    · obtain ⟨out, settles, comes⟩ := tracks_arm checked isOf earlier areOf owns bodyOf
        notTakenArm notTakenFits direct edge below run
      refine ⟨out, settles.congr fun depth => ?_, comes.mono notTakenLeaves (Nat.le_refl _)⟩
      rw [Tree.run, event]
  · have none := checked.outEdges_of_isReturning (serves.returning event)
    rw [edges] at none
    cases none
  · refine ⟨_, (Settles.const _).congr fun depth => ?_, .leaves (.stopped same)⟩
    rw [Tree.run, event]

omit checked isOf earlier areOf serves owns bodyOf in
/-- Control that falls out of an element of a sequence goes on with the elements after it. -/
theorem tracks_cons {front rest : List Tree} {tree : Tree}
    (chain : Chain graph forest (front ++ tree :: rest)) (isOpen : tree.isOpen cell = true)
    {fewer : Nat} (enough : fewer ≤ steps)
    (tracks : runner.Tracks graph forest around (Leaves graph forest tree.blocks) fewer final
      fun depth => tree.run runner (runner.enter depth) body cell state)
    (later : ∀ {coord target cell less state},
      OnItsWay graph forest around ((front ++ [tree]).flatMap Tree.blocks) coord target →
      (coord ∈ runner.flags.recorded → cell = some coord) → less < steps →
      graph.run runner.exec less target state = some final →
      runner.Tracks graph forest around
        (Leaves graph forest ((front ++ tree :: rest).flatMap Tree.blocks)) steps final fun depth =>
          Tree.runElems runner (runner.enter depth) body rest cell state) :
    runner.Tracks graph forest around
      (Leaves graph forest ((front ++ tree :: rest).flatMap Tree.blocks)) steps final fun depth =>
        Tree.runElems runner (runner.enter depth) body (tree :: rest) cell state := by
  obtain ⟨-, -, ordered⟩ := List.pairwise_append.1 chain.ordered
  obtain ⟨out, ⟨depth, settled⟩, comes⟩ := tracks
  cases comes with
  | @falls coord target cell less after leaves plain inside kept less run =>
      have ahead : target ∉ front.flatMap Tree.blocks := by
        intro member
        obtain ⟨former, among, holds⟩ := List.mem_flatMap.1 member
        exact ordered former among tree (by simp) coord target plain leaves.1 holds
      have way : OnItsWay graph forest around ((front ++ [tree]).flatMap Tree.blocks) coord
          target := by
        rw [List.flatMap_append, List.flatMap_singleton]
        exact ⟨plain, inside, List.mem_append_right _ leaves.1,
          by simp [ahead, leaves.2 target plain]⟩
      obtain ⟨out, ⟨another, answers⟩, comes⟩ :=
        later way kept (Nat.lt_of_lt_of_le less enough) run
      refine ⟨out, ⟨max depth another, fun deeper below => ?_⟩, comes⟩
      dsimp only at settled answers ⊢
      rw [Tree.runElems, if_pos isOpen, settled deeper (by omega)]
      exact answers deeper (by omega)
  | @leaves exit ends =>
      refine ⟨.leaves exit, ⟨depth, fun deeper below => ?_⟩, .leaves (ends.mono enough)⟩
      dsimp only at settled ⊢
      rw [Tree.runElems, if_pos isOpen, settled deeper below]

omit isOf areOf serves in
/-- Control that is on its way to one of the elements that follow others is let in there and passes
by the elements before it. -/
theorem tracks_elems {front elems : List Tree} (chain : Chain graph forest (front ++ elems))
    (fits : ∀ tree ∈ elems,
      Fits graph forest (Noted graph forest runner.flags.recorded) around tree)
    (gated : AllGated graph forest runner.flags.recorded around (front.flatMap Tree.blocks) elems)
    {coord : Coord} {target : BlockId}
    (way : OnItsWay graph forest around (front.flatMap Tree.blocks) coord target)
    (kept : coord ∈ runner.flags.recorded → cell = some coord) {fewer : Nat}
    (below : fewer < steps) (run : graph.run runner.exec fewer target state = some final) :
    runner.Tracks graph forest around (Leaves graph forest ((front ++ elems).flatMap Tree.blocks))
      steps final fun depth => Tree.runElems runner (runner.enter depth) body elems cell state := by
  induction elems generalizing front coord target cell state fewer with
  | nil =>
      refine ⟨.falls cell state, (Settles.const _).congr fun depth => by rw [Tree.runElems], ?_⟩
      rw [List.append_nil]
      refine .falls ⟨way.source, fun other plain => ?_⟩ way.plain way.inside kept below run
      exact plain.unique checked way.plain ▸ way.ahead
  | cons tree rest ih =>
      have part := (fits tree (by simp)).part
      obtain ⟨-, -, apart⟩ := List.pairwise_append.1 chain.apart
      have later {cell : Cell} {state : σ} {other : Coord} {block : BlockId} :=
        @ih cell state (front ++ [tree]) (by simpa using chain)
          (fun other member => fits other (List.mem_cons_of_mem _ member))
          (by rw [List.flatMap_append, List.flatMap_singleton]; exact gated.2) other block
      simp only [List.append_assoc, List.singleton_append] at later
      by_cases isHead : target ∈ tree.heads
      · have isOpen : tree.isOpen cell = true := by
          unfold Tree.isOpen
          cases gate : tree.notes.gateOn with
          | none => rfl
          | some coords =>
              obtain ⟨recorded, member⟩ := gated.1.gated coords gate coord target way
              simpa [kept recorded, CoordSet.passes] using member.2 isHead
        exact tracks_cons chain isOpen (Nat.le_of_lt below) (earlier fewer below owns
          (fits tree (by simp)) bodyOf isHead (.along coord way.plain.1 kept) run)
          fun way kept below run => later way kept below run
      · have shut : tree.isOpen cell = false := by
          unfold Tree.isOpen
          cases gate : tree.notes.gateOn with
          | none => exact absurd (gated.1.ungated gate coord target way) isHead
          | some coords =>
              obtain ⟨recorded, member⟩ := gated.1.gated coords gate coord target way
              simpa [kept recorded, CoordSet.passes] using fun among => isHead (member.1 among)
        have away : coord.block ∉ tree.blocks := by
          obtain ⟨former, among, holds⟩ := List.mem_flatMap.1 way.source
          exact apart former among tree (by simp) coord.block holds
        have passed : OnItsWay graph forest around ((front ++ [tree]).flatMap Tree.blocks) coord
            target := by
          rw [List.flatMap_append, List.flatMap_singleton]
          refine ⟨way.plain, way.inside, List.mem_append_left _ way.source, ?_⟩
          simp only [List.mem_append, not_or]
          exact ⟨way.ahead, fun here => isHead (part.entered way.plain.1 away here)⟩
        obtain ⟨out, settles, comes⟩ := later passed kept below run
        refine ⟨out, settles.congr fun depth => ?_, comes⟩
        rw [Tree.runElems, if_neg (by simp [shut])]

omit checked isOf earlier areOf serves owns bodyOf in
theorem mem_recursingExits {jumps : Jumps} {head : Option BlockId} {coord : Coord} :
    coord ∈ recursingExits jumps head ↔
      ∃ own, (coord, own) ∈ jumps.continues ∧ some own = head := by
  simp [recursingExits, SortedSet.mem_toList]

omit checked isOf earlier areOf serves owns bodyOf in
theorem mem_leavingExits {jumps : Jumps} {head : Option BlockId} {coord : Coord} :
    coord ∈ leavingExits jumps head ↔
      (∃ other, (coord, other) ∈ jumps.continues ∧ some other ≠ head) ∨
        (∃ target, jumps.breaks.get? coord = some target) ∨ coord ∈ jumps.returns := by
  simp [leavingExits, SortedSet.mem_toList, SortedMap.mem_keys_iff]

omit earlier areOf serves bodyOf in
/-- An edge out of a loop that continues another one continues one around the loop's region. -/
theorem outside_of_continues {loop : Loop} (nested : loop ∈ forest.inside around) {coord : Coord}
    {target : BlockId} (source : coord.block ∈ loop.body) (edge : graph.HasEdge coord target)
    (outside : target ∉ loop.body) {other : Loop} (continues : Continues graph forest coord other) :
    other ∈ forest.all ∧ target ∈ other.entries ∧
      other ∉ Loop.flattenAll (forest.inside around) := by
  obtain ⟨known, holds⟩ := mem_body_of_continues isOf continues
  obtain ⟨block, edge', continued⟩ := id continues
  cases checked.target_unique edge edge'
  have isEntry := (isOf.continued?_eq_some_iff.1 continued).2.1
  refine ⟨known, isEntry, fun deeper => outside ?_⟩
  obtain ⟨outer, among, within⟩ := Loop.mem_flattenAll.1 deeper
  have isOuter := owns.mem_all (Loop.mem_flattenAll_of_mem among)
  have entered := isOf.entry_mem_body known isEntry
  -- The loop in the region that holds the other one shares a block with this one.
  rcases Loop.mem_flatten.1 within with rfl | within
  · exact (isOf.split_inside owns).eq_of_mem among nested holds source ▸ entered
  · have inOuter := (isOf.nested_body isOuter within holds).1
    have entersOuter := (isOf.nested_body isOuter within entered).1
    exact (isOf.split_inside owns).eq_of_mem among nested inOuter source ▸ entersOuter

omit areOf serves in
/-- After the function of a loop control goes on as the graph does. -/
theorem tracks_afterLoop {label : Label} {loop : Loop} {inner : Tree}
    (part : IsPartOf graph forest around (.loop label loop.entries inner))
    (noted : Noted graph forest runner.flags.recorded around (.loop label loop.entries inner))
    (nested : loop ∈ forest.inside around) (whole : ∀ id, id ∈ inner.blocks ↔ id ∈ loop.body)
    {exit : Exit σ ρ} (ends : Ends graph runner.exec (some loop) steps final exit) :
    runner.Tracks graph forest around
      (Leaves graph forest (Tree.loop label loop.entries inner).blocks) steps final fun depth =>
        Runner.afterLoop
          (fun cell state => body.bind fun body => runner.enter depth body cell state)
          label exit := by
  obtain ⟨recurseOn, returnOn, -⟩ := noted
  have sums : Sums graph forest around
      (Leaves graph forest (Tree.loop label loop.entries inner).blocks) label.jumps := part.ways
  rw [Tree.blocks_loop] at sums ⊢
  have known := owns.mem_all (Loop.mem_flattenAll_of_mem nested)
  cases ends with
  | stopped same =>
      exact ⟨_, (Settles.const _).congr fun depth => by rw [Runner.afterLoop],
        .leaves (.stopped same)⟩
  | @returned value cell after same kept =>
      obtain ⟨coord, rfl, holds, returns⟩ := kept loop rfl
      have noEdge {target : BlockId} (edge : graph.HasEdge coord target) : False := by
        simpa [returns.2] using not_isReturning_of_edge checked edge
      have returned : coord ∈ label.jumps.returns := sums.returns.2
        ⟨⟨(whole _).2 holds, fun target plain => (noEdge plain.1).elim⟩, returns⟩
      have onward : coord ∉ recursingExits label.jumps (around.map Loop.head) := by
        intro recurses
        obtain ⟨head, continues, -⟩ := mem_recursingExits.1 recurses
        obtain ⟨-, other, ⟨target, edge, -⟩, -⟩ := sums.continues.1 continues
        exact noEdge edge
      have leaving : coord ∈ leavingExits label.jumps (around.map Loop.head) :=
        mem_leavingExits.2 (.inr (.inr returned))
      refine ⟨.leaves (.ends (some value) (some coord) after), ?_, .leaves (.returned same ?_)⟩
      · refine (Settles.const _).congr fun depth => ?_
        simp [Runner.afterLoop, recurseOn, returnOn, CoordSet.passes, onward, leaving, returned]
      · rintro outer rfl
        exact ⟨coord, rfl, part.inside _ (by simpa using (whole _).2 holds), returns⟩
  | @out _ coord target fewer after isAround source edge outside below run =>
      cases isAround
      have here : coord.block ∈ blocksOf graph around :=
        part.inside _ (by simpa using (whole _).2 source)
      have leaves : Leaves graph forest inner.blocks coord := ⟨(whole _).2 source,
        fun other plain => checked.target_unique edge plain.1 ▸ fun here =>
          outside ((whole _).1 here)⟩
      have notReturned : coord ∉ label.jumps.returns := by
        intro returned
        have returning := (sums.returns.1 returned).2.2
        simpa [returning] using not_isReturning_of_edge checked edge
      -- What leaves the loop around as well is left to the code after that loop.
      have further {outer : Loop} (isAround : around = some outer) (beyond : target ∉ outer.body)
          (onward : coord ∉ recursingExits label.jumps (around.map Loop.head))
          (leaving : coord ∈ leavingExits label.jumps (around.map Loop.head)) :
          runner.Tracks graph forest around (Leaves graph forest inner.blocks) steps final
            fun depth => Runner.afterLoop (fun cell state =>
              body.bind fun body => runner.enter depth body cell state) label
              (.ends none (some coord) after) := by
        refine ⟨.leaves (.ends none (some coord) after), ?_, .leaves ?_⟩
        · refine (Settles.const _).congr fun depth => ?_
          simp [Runner.afterLoop, recurseOn, returnOn, CoordSet.passes, onward, leaving]
        · subst isAround
          exact .out rfl here edge beyond below run
      rcases plain_or_continues edge with plain | ⟨other, continues⟩
      · have onward : coord ∉ recursingExits label.jumps (around.map Loop.head) := by
          intro recurses
          obtain ⟨head, member, -⟩ := mem_recursingExits.1 recurses
          obtain ⟨-, other, continues, -⟩ := sums.continues.1 member
          exact plain.not_continues checked continues
        by_cases inside : target ∈ blocksOf graph around
        · have stays : coord ∉ leavingExits label.jumps (around.map Loop.head) := by
            intro leaving
            rcases mem_leavingExits.1 leaving with ⟨head, member, -⟩ | ⟨block, isBreak⟩ | returned
            · obtain ⟨-, other, continues, -⟩ := sums.continues.1 member
              exact plain.not_continues checked continues
            · obtain ⟨-, plain', beyond⟩ := sums.breaks.1 isBreak
              exact beyond (plain.unique checked plain' ▸ inside)
            · exact notReturned returned
          refine ⟨.falls (some coord) after, ?_,
            .falls leaves plain inside (fun _ => rfl) below run⟩
          refine (Settles.const _).congr fun depth => ?_
          simp [Runner.afterLoop, recurseOn, returnOn, CoordSet.passes, onward, stays]
        · cases around with
          | none => exact absurd (BlockGraph.mem_idSet.2 (checked.edge_target_mem edge)) inside
          | some outer =>
              exact further rfl inside onward (mem_leavingExits.2 (.inr (.inl
                ⟨target, sums.breaks.2 ⟨leaves, plain, inside⟩⟩)))
      · obtain ⟨isOther, isEntry, notInside⟩ :=
          outside_of_continues checked isOf owns nested source edge outside continues
        have member : (coord, other.head) ∈ label.jumps.continues :=
          sums.continues.2 ⟨leaves, other, continues, notInside, rfl⟩
        cases around with
        | none => exact absurd isOther notInside
        | some outer =>
            have holds := (mem_body_of_continues isOf continues).2
            rcases isOf.position (owns outer rfl) isOther here holds with rfl | deeper | above
            · obtain ⟨exit, settles, ends⟩ := exists_again earlier isOther bodyOf edge isEntry
                (fun _ => rfl) below run
              refine ⟨.leaves exit,
                (settles.map Outcome.leaves).congr fun depth => ?_, .leaves ends⟩
              have recurses : coord ∈ recursingExits label.jumps (some outer.head) :=
                mem_recursingExits.2 ⟨_, member, rfl⟩
              simp [Runner.afterLoop, recurseOn, CoordSet.passes, recurses]
            · exact absurd deeper notInside
            · have differ : other.head ≠ outer.head := by
                intro same
                cases isOf.eq_of_head isOther (owns outer rfl) same
                exact absurd (isOf.id_lt isOther above) (Nat.lt_irrefl _)
              refine further rfl (fun within => (isOf.nested_body isOther above within).2 isEntry)
                ?_ (mem_leavingExits.2 (.inl ⟨_, member, by simpa using differ⟩))
              intro recurses
              obtain ⟨head, among, same⟩ := mem_recursingExits.1 recurses
              obtain ⟨-, again, itself, -, rfl⟩ := sums.continues.1 among
              cases continues.unique checked itself
              exact differ (by simpa using same)

omit checked isOf earlier areOf serves owns bodyOf in
/-- A merge runs the alternative that is entered where control has come to, if it is the only one
that is selected. -/
theorem exists_runSelected {label : Label} {alternatives : List Tree}
    (selects_iff : ∀ tree ∈ alternatives,
      (runner.selects label cell tree.head = true ↔ id ∈ tree.heads))
    (isHead : id ∈ Tree.headsOfAll alternatives) :
    ∃ tree ∈ alternatives, id ∈ tree.heads ∧ ∀ enter,
      Tree.runSelected runner enter body label alternatives cell state =
        tree.run runner enter body cell state := by
  induction alternatives with
  | nil => simp [Tree.headsOfAll] at isHead
  | cons tree rest ih =>
      by_cases here : id ∈ tree.heads
      · refine ⟨tree, by simp, here, fun enter => ?_⟩
        rw [Tree.runSelected, if_pos ((selects_iff tree (by simp)).2 here)]
      · have later : id ∈ Tree.headsOfAll rest := by
          simpa [Tree.headsOfAll, here] using isHead
        obtain ⟨found, member, holds, same⟩ :=
          ih (fun other member => selects_iff other (List.mem_cons_of_mem _ member)) later
        refine ⟨found, List.mem_cons_of_mem _ member, holds, fun enter => ?_⟩
        have passed := mt (selects_iff tree (by simp)).1 here
        rw [Tree.runSelected, if_neg passed]
        exact same enter

omit isOf earlier areOf serves owns bodyOf in
/-- The coordinate recorded last selects the alternative of a merge at which control arrives. -/
theorem selects_iff (entry : runner.entry = graph.entry) {label : Label} {alternatives : List Tree}
    {incoming : Incoming}
    (noted : Noted graph forest runner.flags.recorded around (.merge label alternatives incoming))
    (heads : List.Forall₂ (fun entry tree => tree.heads = .singleton entry)
      (Tree.headsOfAll alternatives).toList alternatives)
    (several : ∀ id ∈ Tree.headsOfAll alternatives,
      ∃ other ∈ Tree.headsOfAll alternatives, other ≠ id)
    (incoming_iff : ∀ entry coords, incoming.get? entry = some coords ↔
      entry ∈ Tree.headsOfAll alternatives ∧ coords = .ofList (graph.inCoords entry))
    (head_mem : ∀ tree ∈ alternatives, tree.head ∈ tree.heads)
    (isHead : id ∈ Tree.headsOfAll alternatives)
    (arrived : Arrived graph runner.flags.recorded cell (Tree.headsOfAll alternatives) id) :
    ∀ tree ∈ alternatives, (runner.selects label cell tree.head = true ↔ id ∈ tree.heads) := by
  obtain ⟨chooseBy, recorded⟩ := noted
  intro tree member
  obtain ⟨own, isOwn, single⟩ := exists_of_mem_right heads member
  have same : tree.head = own := SortedSet.mem_singleton.1 (single ▸ head_mem tree member)
  have choices {block : BlockId} (isHead : block ∈ Tree.headsOfAll alternatives) :
      incoming.get? block = some (.ofList (graph.inCoords block)) :=
    (incoming_iff block _).2 ⟨isHead, rfl⟩
  rw [single, SortedSet.mem_singleton, same]
  simp only [Runner.selects, chooseBy, Option.bind_some, choices isOwn]
  cases arrived with
  | only only =>
      obtain ⟨other, isOther, differ⟩ := several id isHead
      exact absurd (only other isOther) differ
  | start blank first =>
      subst blank first
      simp [entry, eq_comm]
  | along coord edge kept =>
      have among : coord ∈ SortedSet.ofList (graph.inCoords id) :=
        SortedSet.mem_ofList.2 (checked.mem_inCoords_iff.2 edge)
      rw [kept (recorded id _ (choices isHead) coord among)]
      simp only [SortedSet.mem_ofList, checked.mem_inCoords_iff, decide_eq_true_eq]
      exact ⟨fun other => checked.target_unique edge other, fun same => same ▸ edge⟩

end Nodes

/-- A runner with the flags of a graph follows the graph. -/
theorem Runner.follows {σ ρ : Type} {runner : Runner σ ρ} {graph : BlockGraph}
    {forest : LoopForest} (checked : graph.Checked) (isOf : forest.IsOf graph)
    (areOf : runner.flags.AreOf graph forest) (serves : Serves runner.exec graph)
    (entry : runner.entry = graph.entry) (steps : Nat) : runner.Follows graph forest steps := by
  induction steps using Nat.strongRecOn with
  | ind steps earlier =>
      intro around tree body owns fits bodyOf id cell state final isHead arrived run
      induction fits generalizing body id with
      | @jump around label part noted direct straight leaves =>
          cases SortedSet.mem_singleton.1 isHead
          rw [Tree.blocks_jump]
          exact tracks_jump checked isOf earlier areOf serves owns bodyOf direct straight leaves run
      | @conditional around label taken notTaken one two part noted direct branching edges takenArm
          notTakenArm takenLeaves notTakenLeaves takenFits notTakenFits takenIh notTakenIh =>
          cases SortedSet.mem_singleton.1 isHead
          exact tracks_conditional checked isOf earlier areOf serves owns bodyOf direct edges
            takenArm notTakenArm takenLeaves notTakenLeaves takenFits notTakenFits run
      | @sequence around label first rest part noted chain flat fits ih =>
          have isOpen : first.isOpen cell = true := by simp [Tree.isOpen, noted.1]
          have gated : AllGated graph forest runner.flags.recorded around
              ([first].flatMap Tree.blocks) rest := by
            rw [List.flatMap_singleton]
            exact noted.2
          rw [Tree.blocks_sequence]
          obtain ⟨out, settles, comes⟩ := tracks_cons
            (show Chain graph forest ([] ++ first :: rest) from chain) isOpen (Nat.le_refl _)
            (ih first (by simp) owns bodyOf isHead arrived run) fun way kept below run =>
              tracks_elems checked earlier owns bodyOf
                (show Chain graph forest ([first] ++ rest) from chain)
                (fun tree member => fits tree (List.mem_cons_of_mem _ member)) gated way kept below
                run
          refine ⟨out, settles.congr fun depth => ?_, comes⟩
          rw [Tree.run]
      | @loop around label inner loop part noted nested head heads whole fits ih =>
          have ownsLoop := owns_some (owns.mem_all (Loop.mem_flattenAll_of_mem nested))
          obtain ⟨exit, settles, ends⟩ := exists_enter whole
            (ih ownsLoop (.some fits heads whole) (heads ▸ isHead) (heads ▸ arrived) run)
          obtain ⟨out, later, comes⟩ := tracks_afterLoop checked isOf earlier owns bodyOf part noted
            nested whole ends
          refine ⟨out, (settles.bind later).congr fun depth => ?_, comes⟩
          rw [Tree.run]
      | @merge around label alternatives incoming part noted heads several isEntry incoming_iff
          leaves fits ih =>
          obtain ⟨found, member, holds, same⟩ := exists_runSelected (selects_iff checked entry noted
            heads several incoming_iff (fun tree member => (fits tree member).part.head_mem) isHead
            arrived) isHead
          obtain ⟨own, -, single⟩ := exists_of_mem_right heads member
          have only : Arrived graph runner.flags.recorded cell found.heads id := by
            rw [single] at holds ⊢
            exact .only fun other isOther => (SortedSet.mem_singleton.1 isOther).trans
              (SortedSet.mem_singleton.1 holds).symm
          obtain ⟨out, settles, comes⟩ := ih found member owns bodyOf holds only run
          refine ⟨out, settles.congr fun depth => ?_,
            comes.mono (leaves found member) (Nat.le_refl _)⟩
          rw [Tree.run, same]

/-- The end of a run of a graph is the end of a run of its tree. -/
inductive Final.IsOf {σ ρ : Type} : Final σ ρ → Exit σ ρ → Prop where
  | returned {value : ρ} {cell : Cell} {after : σ} :
      Final.IsOf (.returned value after) (.ends (some value) cell after)
  | stopped {after : σ} : Final.IsOf (.stopped after) (.stops after)

/-- The marked tree of a graph ends as the graph does. -/
theorem IsMarkedTree.exists_start {σ ρ : Type} {graph : BlockGraph} {forest : LoopForest}
    {tree : Tree} {runner : Runner σ ρ} (checked : graph.Checked) (isOf : forest.IsOf graph)
    (isMarked : IsMarkedTree graph forest tree runner.flags) (serves : Serves runner.exec graph)
    (entry : runner.entry = graph.entry) {steps : Nat} {state : σ} {final : Final σ ρ}
    (run : graph.run runner.exec steps graph.entry state = some final) :
    ∃ exit, Settles (fun depth => runner.start depth tree state) exit ∧ final.IsOf exit := by
  obtain ⟨out, settles, comes⟩ := Runner.follows checked isOf isMarked.areOf serves entry steps
    owns_none isMarked.fits .none isMarked.entry_mem (.start rfl rfl) run
  refine ⟨out.close, settles.map Outcome.close, ?_⟩
  cases comes with
  | falls way plain inside =>
      exact absurd ((isMarked.whole _).2 (BlockGraph.mem_idSet.1 inside)) (way.2 _ plain)
  | leaves ends =>
      cases ends with
      | out isAround => cases isAround
      | returned same => exact same ▸ .returned
      | stopped same => exact same ▸ .stopped

end GotoFree
