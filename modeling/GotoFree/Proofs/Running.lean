import GotoFree.Flow.Flags
import GotoFree.Flow.Graph

/-!
# Running graphs and trees

What a block does is left open: it is left along a branch, or ends the run with a value. A graph is
run from block to block (`BlockGraph.run`). A marked tree is run as its code is: the control cell
holds the coordinate recorded last, a loop is a function of its own that calls itself to go round
again, and every function leaves a value behind (`Tree.run`, `Runner.enter`). Both are functions
with a bound on how far they go; `stops` ends a run wherever it is.
-/

namespace GotoFree

/-- What a block does with a state. -/
inductive Event (σ ρ : Type) where
  /-- Control leaves the block along a branch. -/
  | along (branch : Branch) (state : σ)
  /-- The run returns. -/
  | returns (value : ρ) (state : σ)
  /-- The run is given up. -/
  | stops (state : σ)

/-- How a run ends. -/
inductive Final (σ ρ : Type) where
  | returned (value : ρ) (state : σ)
  | stopped (state : σ)

/-! ## Graphs -/

namespace BlockGraph

variable {σ ρ : Type}

/-- The block to which control leaves along a coordinate. -/
def target? (graph : BlockGraph) (coord : Coord) : Option BlockId :=
  (graph.outEdges coord.block).lookup coord

/-- Runs a graph from a block on, over fewer blocks than a number. -/
def run (graph : BlockGraph) (exec : BlockId → σ → Option (Event σ ρ)) :
    Nat → BlockId → σ → Option (Final σ ρ)
  | 0, _, _ => none
  | steps + 1, id, state =>
      match exec id state with
      | some (.along branch after) =>
          match graph.target? ⟨id, branch⟩ with
          | some target => run graph exec steps target after
          | none => none
      | some (.returns value after) => some (.returned value after)
      | some (.stops after) => some (.stopped after)
      | none => none

end BlockGraph

/-! ## Trees -/

/-- The coordinate recorded last. -/
abbrev Cell := Option Coord

/-- How a function - of a loop or of the whole method - is left. -/
inductive Exit (σ ρ : Type) where
  /-- It has run to its end, with a value if that was a return. -/
  | ends (value : Option ρ) (cell : Cell) (state : σ)
  | stops (state : σ)

/-- How control comes out of a part of a function. -/
inductive Outcome (σ ρ : Type) where
  /-- It goes on behind the part. -/
  | falls (cell : Cell) (state : σ)
  /-- It leaves the function. -/
  | leaves (exit : Exit σ ρ)

/-- A function is also left where control falls out of its body. -/
def Outcome.close {σ ρ : Type} : Outcome σ ρ → Exit σ ρ
  | falls cell state => .ends none cell state
  | leaves exit => exit

/-- Whether the coordinate recorded last is one of some. -/
def CoordSet.passes (coords : CoordSet) : Cell → Bool
  | some coord => coord ∈ coords
  | none => false

/-- What is needed to run the tree of a method. -/
structure Runner (σ ρ : Type) where
  /-- The block the method starts with. -/
  entry : BlockId
  flags : Flags
  exec : BlockId → σ → Option (Event σ ρ)

namespace Runner

variable {σ ρ : Type} (runner : Runner σ ρ)

/-- The control cell after a coordinate was recorded, if anything waits for it. -/
def record (coord : Coord) (cell : Cell) : Cell :=
  if coord ∈ runner.flags.recorded then some coord else cell

/-- Leaves a block along a coordinate: back to the start of its loop, out of the loop's function,
or to what follows. -/
def leave (again : Cell → σ → Option (Exit σ ρ)) (coord : Coord) (cell : Cell) (state : σ) :
    Option (Outcome σ ρ) :=
  if coord ∈ runner.flags.recursing then (again (runner.record coord cell) state).map .leaves
  else if coord ∈ runner.flags.leaving then
    some (.leaves (.ends none (runner.record coord cell) state))
  else some (.falls (runner.record coord cell) state)

/-- Whether the coordinate recorded last selects the alternative of a merge with a head. The one the
method starts with is also run before anything is recorded. -/
def selects (merge : Label) (cell : Cell) (head : BlockId) : Bool :=
  match merge.notes.chooseBy.bind fun choices => choices.get? head, cell with
  | some coords, some coord => coord ∈ coords
  | some _, none => head = runner.entry
  | none, _ => false

/-- Goes on after the function of a loop. -/
def afterLoop (again : Cell → σ → Option (Exit σ ρ)) (label : Label) :
    Exit σ ρ → Option (Outcome σ ρ)
  | .ends value cell state =>
      if (label.notes.recurseOn.getD .empty).passes cell then (again cell state).map .leaves
      else if (label.notes.returnOn.getD .empty).passes cell then
        some (.leaves (.ends (if CoordSet.passes label.jumps.returns cell then value else none)
          cell state))
      else some (.falls cell state)
  | .stops state => some (.leaves (.stops state))

end Runner

namespace Tree

variable {σ ρ : Type}

/-- Whether a node in a sequence is run. -/
def isOpen (tree : Tree) (cell : Cell) : Bool :=
  tree.notes.gateOn.all fun coords => CoordSet.passes coords cell

mutual

/-- Runs a tree in the function of the loop `around` it, or of the method. The functions of loops
are run with `enter`. -/
def run (runner : Runner σ ρ) (enter : Tree → Cell → σ → Option (Exit σ ρ))
    (around : Option Tree) : Tree → Cell → σ → Option (Outcome σ ρ)
  | jump label coord, cell, state =>
      match runner.exec label.head state with
      | some (.along _ after) =>
          runner.leave (fun cell state => around.bind fun body => enter body cell state)
            coord cell after
      | some (.returns value after) =>
          some (.leaves (.ends (some value) (runner.record ⟨label.head, .exit⟩ cell) after))
      | some (.stops after) => some (.leaves (.stops after))
      | none => none
  | conditional label taken notTaken, cell, state =>
      match runner.exec label.head state with
      | some (.along .taken after) => runArm runner enter around taken cell after
      | some (.along .notTaken after) => runArm runner enter around notTaken cell after
      | some (.stops after) => some (.leaves (.stops after))
      | _ => none
  | sequence _ elems, cell, state => runElems runner enter around elems cell state
  | loop label _ body, cell, state =>
      (enter body cell state).bind <|
        Runner.afterLoop (fun cell state => around.bind fun body => enter body cell state) label
  | merge label alternatives _, cell, state =>
      runSelected runner enter around label alternatives cell state

/-- Runs an arm of a conditional. -/
def runArm (runner : Runner σ ρ) (enter : Tree → Cell → σ → Option (Exit σ ρ))
    (around : Option Tree) : Arm → Cell → σ → Option (Outcome σ ρ)
  | .jump coord _, cell, state =>
      runner.leave (fun cell state => around.bind fun body => enter body cell state)
        coord cell state
  | .nested tree, cell, state => run runner enter around tree cell state

/-- Runs the elements of a sequence whose gates let control in. -/
def runElems (runner : Runner σ ρ) (enter : Tree → Cell → σ → Option (Exit σ ρ))
    (around : Option Tree) : List Tree → Cell → σ → Option (Outcome σ ρ)
  | [], cell, state => some (.falls cell state)
  | tree :: rest, cell, state =>
      if tree.isOpen cell then
        match run runner enter around tree cell state with
        | some (.falls cell state) => runElems runner enter around rest cell state
        | other => other
      else runElems runner enter around rest cell state

/-- Runs the first alternative of a merge that is selected. -/
def runSelected (runner : Runner σ ρ) (enter : Tree → Cell → σ → Option (Exit σ ρ))
    (around : Option Tree) (label : Label) : List Tree → Cell → σ → Option (Outcome σ ρ)
  | [], _, _ => none
  | tree :: rest, cell, state =>
      if runner.selects label cell tree.head then run runner enter around tree cell state
      else runSelected runner enter around label rest cell state

end

end Tree

namespace Runner

variable {σ ρ : Type} (runner : Runner σ ρ)

/-- Runs the function of a loop with a body, up to a depth of calls. -/
def enter : Nat → Tree → Cell → σ → Option (Exit σ ρ)
  | 0, _, _, _ => none
  | depth + 1, body, cell, state =>
      (body.run runner (enter depth) (some body) cell state).map Outcome.close

/-- Runs a method with a tree, up to a depth of calls. -/
def start (depth : Nat) (tree : Tree) (state : σ) : Option (Exit σ ρ) :=
  (tree.run runner (runner.enter depth) none none state).map Outcome.close

end Runner

/-! ## More calls do not change a run -/

section Depth

variable {σ ρ : Type} {runner : Runner σ ρ} {enter later : Tree → Cell → σ → Option (Exit σ ρ)}
  {around : Option Tree}

/-- Functions that end are left in the same way among more functions that end. -/
def Within (enter later : Tree → Cell → σ → Option (Exit σ ρ)) : Prop :=
  ∀ body cell state exit, enter body cell state = some exit → later body cell state = some exit

/-- Running a loop again comes out the same at a greater depth. -/
theorem again_mono (more : Within enter later) {cell : Cell} {state : σ} {exit : Exit σ ρ}
    (ran : (around.bind fun body => enter body cell state) = some exit) :
    (around.bind fun body => later body cell state) = some exit := by
  cases around with
  | none => cases ran
  | some body => exact more body cell state exit ran

/-- Leaving a part comes out the same at a greater depth. -/
theorem Runner.leave_mono (more : Within enter later) {coord : Coord} {cell : Cell} {state : σ}
    {out : Outcome σ ρ}
    (ran : runner.leave (fun cell state => around.bind fun body => enter body cell state)
      coord cell state = some out) :
    runner.leave (fun cell state => around.bind fun body => later body cell state)
      coord cell state = some out := by
  unfold leave at ran ⊢
  split
  · next recursing =>
    rw [if_pos recursing] at ran
    obtain ⟨exit, again, same⟩ := Option.map_eq_some_iff.1 ran
    exact Option.map_eq_some_iff.2 ⟨exit, again_mono more again, same⟩
  · next onward =>
    rwa [if_neg onward] at ran

/-- What follows a loop comes out the same at a greater depth. -/
theorem Runner.afterLoop_mono (more : Within enter later) {label : Label} {exit : Exit σ ρ}
    {out : Outcome σ ρ}
    (ran : afterLoop (fun cell state => around.bind fun body => enter body cell state)
      label exit = some out) :
    afterLoop (fun cell state => around.bind fun body => later body cell state)
      label exit = some out := by
  cases exit with
  | stops => exact ran
  | ends value cell state =>
      unfold afterLoop at ran ⊢
      dsimp only at ran ⊢
      split
      · next recurses =>
        rw [if_pos recurses] at ran
        obtain ⟨exit, again, same⟩ := Option.map_eq_some_iff.1 ran
        exact Option.map_eq_some_iff.2 ⟨exit, again_mono more again, same⟩
      · next onward =>
        rwa [if_neg onward] at ran

mutual

/-- What a tree does with some calls it does with more of them. -/
theorem Tree.run_mono (more : Within enter later) {tree : Tree} {cell : Cell} {state : σ}
    {out : Outcome σ ρ}
    (ran : tree.run runner enter around cell state = some out) :
    tree.run runner later around cell state = some out := by
  cases tree with
  | jump label coord =>
      rw [Tree.run] at ran ⊢
      split at ran
      · exact Runner.leave_mono more ran
      all_goals exact ran
  | conditional label taken notTaken =>
      rw [Tree.run] at ran ⊢
      split at ran
      · exact Tree.runArm_mono more ran
      · exact Tree.runArm_mono more ran
      all_goals exact ran
  | sequence label elems =>
      rw [Tree.run] at ran ⊢
      exact Tree.runElems_mono more ran
  | loop label entries body =>
      rw [Tree.run] at ran ⊢
      obtain ⟨exit, inner, outer⟩ := Option.bind_eq_some_iff.1 ran
      exact Option.bind_eq_some_iff.2 ⟨exit, more _ _ _ _ inner, Runner.afterLoop_mono more outer⟩
  | merge label alternatives incoming =>
      rw [Tree.run] at ran ⊢
      exact Tree.runSelected_mono more ran

/-- An arm comes out the same at a greater depth. -/
theorem Tree.runArm_mono (more : Within enter later) {arm : Arm} {cell : Cell} {state : σ}
    {out : Outcome σ ρ}
    (ran : Tree.runArm runner enter around arm cell state = some out) :
    Tree.runArm runner later around arm cell state = some out := by
  cases arm with
  | jump coord jumps =>
      rw [Tree.runArm] at ran ⊢
      exact Runner.leave_mono more ran
  | nested tree =>
      rw [Tree.runArm] at ran ⊢
      exact Tree.run_mono more ran

/-- The elements of a sequence come out the same at a greater depth. -/
theorem Tree.runElems_mono (more : Within enter later) {elems : List Tree} {cell : Cell}
    {state : σ} {out : Outcome σ ρ}
    (ran : Tree.runElems runner enter around elems cell state = some out) :
    Tree.runElems runner later around elems cell state = some out := by
  cases elems with
  | nil => exact ran
  | cons tree rest =>
      rw [Tree.runElems] at ran ⊢
      split
      · next isOpen =>
        rw [if_pos isOpen] at ran
        cases first : tree.run runner enter around cell state with
        | none => simp [first] at ran
        | some outcome =>
            rw [Tree.run_mono more first]
            rw [first] at ran
            cases outcome with
            | falls => exact Tree.runElems_mono more ran
            | leaves => exact ran
      · next shut =>
        rw [if_neg shut] at ran
        exact Tree.runElems_mono more ran

/-- The alternative that is selected comes out the same at a greater depth. -/
theorem Tree.runSelected_mono (more : Within enter later) {label : Label}
    {alternatives : List Tree} {cell : Cell} {state : σ} {out : Outcome σ ρ}
    (ran : Tree.runSelected runner enter around label alternatives cell state = some out) :
    Tree.runSelected runner later around label alternatives cell state = some out := by
  cases alternatives with
  | nil => cases ran
  | cons tree rest =>
      rw [Tree.runSelected] at ran ⊢
      split
      · next selected =>
        rw [if_pos selected] at ran
        exact Tree.run_mono more ran
      · next other =>
        rw [if_neg other] at ran
        exact Tree.runSelected_mono more ran

end

namespace Runner

/-- Entering loops comes out the same at the next depth. -/
theorem within_enter_succ (depth : Nat) :
    Within (runner.enter depth) (runner.enter (depth + 1)) := by
  induction depth with
  | zero => exact fun body cell state exit ran => by cases ran
  | succ depth ih =>
      intro body cell state exit ran
      rw [enter] at ran ⊢
      obtain ⟨outcome, inner, same⟩ := Option.map_eq_some_iff.1 ran
      exact Option.map_eq_some_iff.2 ⟨outcome, Tree.run_mono ih inner, same⟩

/-- A function that ends within a depth of calls is left in the same way with any greater depth. -/
theorem within_enter {depth deeper : Nat} (below : depth ≤ deeper) :
    Within (runner.enter depth) (runner.enter deeper) := by
  induction below with
  | refl => exact fun _ _ _ _ ran => ran
  | step _ ih =>
      exact fun body cell state exit ran =>
        within_enter_succ _ body cell state exit (ih body cell state exit ran)

/-- A run comes out the same at any greater depth. -/
theorem start_mono {depth deeper : Nat} (below : depth ≤ deeper) {tree : Tree} {state : σ}
    {exit : Exit σ ρ} (ran : runner.start depth tree state = some exit) :
    runner.start deeper tree state = some exit := by
  obtain ⟨outcome, inner, same⟩ := Option.map_eq_some_iff.1 ran
  exact Option.map_eq_some_iff.2 ⟨outcome, Tree.run_mono (within_enter below) inner, same⟩

end Runner

end Depth

end GotoFree
