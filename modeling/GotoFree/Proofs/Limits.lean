import GotoFree.Proofs.Simulation

/-!
# Runs that are given up

A run is limited by giving it up after a number of blocks (`limited`), and then the run of a graph
always ends. A run of a tree that ends passes only so many blocks, and ends in the same way with any
greater limit (`Tree.passes_run`). So the marked tree of a graph returns exactly when the
graph does (`IsMarkedTree.start_iff`).
-/

namespace GotoFree

section Limits

variable {σ ρ τ : Type}

/-- An event with a changed state. -/
def Event.map (change : σ → τ) : Event σ ρ → Event τ ρ
  | along branch state => .along branch (change state)
  | returns value state => .returns value (change state)
  | stops state => .stops (change state)

/-- The end of a function with a changed state. -/
def Exit.map (change : σ → τ) : Exit σ ρ → Exit τ ρ
  | ends value cell state => .ends value cell (change state)
  | stops state => .stops (change state)

/-- What comes out of a part of a function, with a changed state. -/
def Outcome.map (change : σ → τ) : Outcome σ ρ → Outcome τ ρ
  | falls cell state => .falls cell (change state)
  | leaves exit => .leaves (exit.map change)

/-- The value of a state may be changed before or after a part is closed. -/
theorem Outcome.close_map {change : σ → τ} {out : Outcome σ ρ} :
    (out.map change).close = out.close.map change := by
  cases out <;> rfl

/-- What blocks do in a run that is given up after a number of blocks, and where a block does
nothing. -/
def limited (exec : BlockId → σ → Option (Event σ ρ)) (id : BlockId) :
    Nat × σ → Option (Event (Nat × σ) ρ)
  | (0, state) => some (.stops (0, state))
  | (left + 1, state) =>
      some (((exec id state).map (Event.map (left, ·))).getD (.stops (left, state)))

/-- A block runs within a limit if a step is left. -/
theorem limited_succ {exec : BlockId → σ → Option (Event σ ρ)} {id : BlockId} {left : Nat}
    {state : σ} {event : Event σ ρ} (does : exec id state = some event) :
    limited exec id (left + 1, state) = some (event.map (left, ·)) := by
  simp [limited, does]

/-- An event of a limited run is one of the blocks, or the run is given up. -/
theorem limited_cases {exec : BlockId → σ → Option (Event σ ρ)} {id : BlockId} {left : Nat}
    {state : σ} {event : Event (Nat × σ) ρ} (does : limited exec id (left, state) = some event) :
    (∃ after, event = .stops after) ∨
      ∃ fewer own, left = fewer + 1 ∧ exec id state = some own ∧ event = own.map (fewer, ·) := by
  cases left with
  | zero => exact .inl ⟨_, (Option.some.inj does).symm⟩
  | succ left =>
      cases own : exec id state with
      | none =>
          simp only [limited, own] at does
          exact .inl ⟨_, (Option.some.inj does).symm⟩
      | some event =>
          rw [limited_succ own] at does
          exact .inr ⟨left, event, rfl, rfl, (Option.some.inj does).symm⟩

/-- Blocks that serve a graph do so within a limit. -/
theorem Serves.limited {exec : BlockId → σ → Option (Event σ ρ)} {graph : BlockGraph}
    (serves : Serves exec graph) : Serves (limited exec) graph where
  exit_iff {id state branch after} event := by
    obtain ⟨left, state⟩ := state
    rcases limited_cases event with ⟨_, given⟩ | ⟨fewer, own, -, does, same⟩
    · cases given
    · cases own with
      | along => cases same; exact serves.exit_iff does
      | returns | stops => cases same
  returning {id state value after} event := by
    obtain ⟨left, state⟩ := state
    rcases limited_cases event with ⟨_, given⟩ | ⟨fewer, own, -, does, same⟩
    · cases given
    · cases own with
      | returns => cases same; exact serves.returning does
      | along | stops => cases same

/-- A limited run of a graph ends: it returns as the graph does, or is given up. -/
theorem BlockGraph.Checked.exists_run_limited {graph : BlockGraph} (checked : graph.Checked)
    {exec : BlockId → σ → Option (Event σ ρ)}
    (leads : ∀ {id state branch after},
      id ∈ graph.ids → exec id state = some (.along branch after) →
      ∃ target, graph.HasEdge ⟨id, branch⟩ target) {left : Nat} {id : BlockId}
    (known : id ∈ graph.ids) {state : σ} :
    (∃ value after, graph.run (GotoFree.limited exec) (left + 1) id (left, state) =
        some (.returned value after) ∧
      graph.run exec (left + 1) id state = some (.returned value after.2)) ∨
    ∃ after, graph.run (GotoFree.limited exec) (left + 1) id (left, state) =
      some (.stopped after) := by
  induction left generalizing id state with
  | zero => exact .inr ⟨(0, state), rfl⟩
  | succ left ih =>
      cases does : exec id state with
      | none => exact .inr ⟨(left, state), by simp [BlockGraph.run, GotoFree.limited, does]⟩
      | some event =>
          cases event with
          | returns value after =>
              refine .inl ⟨value, (left, after), ?_, ?_⟩
              · simp [BlockGraph.run, limited_succ does, Event.map]
              · simp [BlockGraph.run, does]
          | stops after =>
              exact .inr ⟨(left, after), by simp [BlockGraph.run, limited_succ does, Event.map]⟩
          | along branch after =>
              obtain ⟨target, edge⟩ := leads known does
              have found := checked.target?_eq_some_iff.2 edge
              have next := @ih target (checked.edge_target_mem edge) after
              rw [BlockGraph.run, limited_succ does]
              simp only [Event.map, found]
              refine next.imp_left ?_
              rintro ⟨value, final, ends, returns⟩
              refine ⟨value, final, ends, ?_⟩
              rw [BlockGraph.run, does]
              simp only [found, returns]

/-- A computation that passes only so many blocks answers the same with any greater limit. -/
def Passes {α : Type} (compute : Nat → Option α) (result : Nat → α) : Prop :=
  ∃ count, ∀ left, compute (left + count) = some (result left)

/-- A result that is there with any limit is passed on. -/
theorem Passes.const {α : Type} (result : Nat → α) :
    Passes (fun left => some (result left)) result :=
  ⟨0, fun _ => rfl⟩

theorem Passes.congr {α : Type} {first second : Nat → Option α} {result : Nat → α}
    (passes : Passes first result) (same : ∀ left, second left = first left) :
    Passes second result :=
  (funext same : second = first) ▸ passes

/-- A computation that begins with a block. -/
theorem Passes.of_succ {α : Type} {compute : Nat → Option α} {result : Nat → α}
    (passes : Passes (fun left => compute (left + 1)) result) : Passes compute result := by
  obtain ⟨count, passed⟩ := passes
  exact ⟨count + 1, passed⟩

/-- A change of a result is passed on. -/
theorem Passes.map {α β : Type} {compute : Nat → Option α} {result : Nat → α}
    (passes : Passes compute result) (change : α → β) :
    Passes (fun left => (compute left).map change) fun left => change (result left) := by
  obtain ⟨count, passed⟩ := passes
  refine ⟨count, fun left => ?_⟩
  dsimp only
  rw [passed, Option.map_some]

/-- The limit for two computations, the second of which goes on where the first one ends. -/
theorem Passes.bind {α β : Type} {compute : Nat → Option α} {result : Nat → α}
    (passes : Passes compute result) {rest : α → Option β} {final : Nat → β}
    (later : Passes (fun left => rest (result left)) final) :
    Passes (fun left => (compute left).bind rest) final := by
  obtain ⟨count, passed⟩ := passes
  obtain ⟨other, ends⟩ := later
  refine ⟨other + count, fun left => ?_⟩
  dsimp only at ends ⊢
  rw [← Nat.add_assoc, passed, Option.bind_some, ends]

end Limits

/-! ## Limited runs of trees -/

section Trees

variable {σ ρ : Type} {runner : Runner σ ρ} {around : Option Tree}
  {enter : Tree → Cell → σ → Option (Exit σ ρ)}
  {enterLimited : Tree → Cell → Nat × σ → Option (Exit (Nat × σ) ρ)}

/-- The runner of limited runs. -/
def Runner.limited (runner : Runner σ ρ) : Runner (Nat × σ) ρ :=
  ⟨runner.entry, runner.flags, GotoFree.limited runner.exec⟩

/-- A block of a tree runs within a limit if a step is left. -/
theorem Runner.exec_limited {id : BlockId} {left : Nat} {state : σ} {event : Event σ ρ}
    (does : runner.exec id state = some event) :
    runner.limited.exec id (left + 1, state) = some (event.map (left, ·)) :=
  limited_succ does

/-- Calls that end are left in the same way with a limit that is great enough. -/
def Limits (call : Cell → σ → Option (Exit σ ρ))
    (callLimited : Cell → Nat × σ → Option (Exit (Nat × σ) ρ)) : Prop :=
  ∀ cell state exit, call cell state = some exit →
    Passes (fun left => callLimited cell (left, state)) fun left => exit.map (left, ·)

section Calls

variable {again : Cell → σ → Option (Exit σ ρ)}
  {againLimited : Cell → Nat × σ → Option (Exit (Nat × σ) ρ)}

/-- Leaving a part comes out alike within a limit that is large enough. -/
theorem Runner.passes_leave (limits : Limits again againLimited) {coord : Coord} {cell : Cell}
    {state : σ} {out : Outcome σ ρ} (ran : runner.leave again coord cell state = some out) :
    Passes (fun left => runner.limited.leave againLimited coord cell (left, state))
      fun left => out.map (left, ·) := by
  unfold leave at ran ⊢
  by_cases recurses : coord ∈ runner.flags.recursing
  · rw [if_pos recurses] at ran
    obtain ⟨exit, called, rfl⟩ := Option.map_eq_some_iff.1 ran
    have passes := (limits _ _ _ called).map Outcome.leaves
    exact passes.congr fun left => if_pos recurses
  · rw [if_neg recurses] at ran
    refine Passes.congr ?_ fun left => if_neg recurses
    by_cases leaves : coord ∈ runner.flags.leaving
    · rw [if_pos leaves] at ran
      cases ran
      exact (Passes.const _).congr fun left => if_pos leaves
    · rw [if_neg leaves] at ran
      cases ran
      exact (Passes.const _).congr fun left => if_neg leaves

/-- What follows a loop comes out alike within a limit that is large enough. -/
theorem Runner.passes_afterLoop (limits : Limits again againLimited) {label : Label}
    {exit : Exit σ ρ} {out : Outcome σ ρ} (ran : afterLoop again label exit = some out) :
    Passes (fun left => afterLoop againLimited label (exit.map (left, ·)))
      fun left => out.map (left, ·) := by
  cases exit with
  | stops state =>
      cases ran
      exact .const _
  | ends value cell state =>
      unfold afterLoop at ran ⊢
      dsimp only [Exit.map] at ran ⊢
      by_cases recurses : (label.notes.recurseOn.getD .empty).passes cell
      · rw [if_pos recurses] at ran
        obtain ⟨exit, called, rfl⟩ := Option.map_eq_some_iff.1 ran
        have passes := (limits _ _ _ called).map Outcome.leaves
        exact passes.congr fun left => if_pos recurses
      · rw [if_neg recurses] at ran
        refine Passes.congr ?_ fun left => if_neg recurses
        by_cases leaves : (label.notes.returnOn.getD .empty).passes cell
        · rw [if_pos leaves] at ran
          cases ran
          exact (Passes.const _).congr fun left => if_pos leaves
        · rw [if_neg leaves] at ran
          cases ran
          exact (Passes.const _).congr fun left => if_neg leaves

end Calls

/-- Running a loop again comes out alike within a limit that is large enough. -/
theorem limits_again (limits : ∀ body, Limits (enter body) (enterLimited body)) :
    Limits (fun cell state => around.bind fun body => enter body cell state)
      fun cell state => around.bind fun body => enterLimited body cell state := by
  intro cell state exit ran
  cases around with
  | none => cases ran
  | some body => exact limits body cell state exit ran

mutual

/-- A run of a tree that ends passes only so many blocks, and ends in the same way with any greater
limit. -/
theorem Tree.passes_run (limits : ∀ body, Limits (enter body) (enterLimited body))
    {tree : Tree} {cell : Cell} {state : σ} {out : Outcome σ ρ}
    (ran : tree.run runner enter around cell state = some out) :
    Passes (fun left => tree.run runner.limited enterLimited around cell (left, state))
      fun left => out.map (left, ·) := by
  cases tree with
  | jump label coord =>
      rw [Tree.run] at ran
      refine .of_succ ?_
      split at ran
      · next branch after does =>
        have passes := Runner.passes_leave (limits_again limits) ran
        refine passes.congr fun left => ?_
        rw [Tree.run, Runner.exec_limited does]
        rfl
      · next value after does =>
        cases ran
        refine (Passes.const _).congr fun left => ?_
        rw [Tree.run, Runner.exec_limited does]
        rfl
      · next after does =>
        cases ran
        refine (Passes.const _).congr fun left => ?_
        rw [Tree.run, Runner.exec_limited does]
        rfl
      · cases ran
  | conditional label taken notTaken =>
      rw [Tree.run] at ran
      refine .of_succ ?_
      split at ran
      · next after does =>
        have passes := Tree.passes_runArm limits ran
        refine passes.congr fun left => ?_
        rw [Tree.run, Runner.exec_limited does]
        rfl
      · next after does =>
        have passes := Tree.passes_runArm limits ran
        refine passes.congr fun left => ?_
        rw [Tree.run, Runner.exec_limited does]
        rfl
      · next after does =>
        cases ran
        refine (Passes.const _).congr fun left => ?_
        rw [Tree.run, Runner.exec_limited does]
        rfl
      · cases ran
  | sequence label elems =>
      rw [Tree.run] at ran
      have passes := Tree.passes_runElems limits ran
      exact passes.congr fun left => by rw [Tree.run]
  | loop label entries body =>
      rw [Tree.run] at ran
      obtain ⟨exit, inner, outer⟩ := Option.bind_eq_some_iff.1 ran
      have passes := (limits body _ _ _ inner).bind
        (Runner.passes_afterLoop (limits_again limits) outer)
      exact passes.congr fun left => by rw [Tree.run]
  | merge label alternatives incoming =>
      rw [Tree.run] at ran
      have passes := Tree.passes_runSelected limits ran
      exact passes.congr fun left => by rw [Tree.run]

/-- An arm comes out alike within a limit that is large enough. -/
theorem Tree.passes_runArm (limits : ∀ body, Limits (enter body) (enterLimited body))
    {arm : Arm} {cell : Cell} {state : σ} {out : Outcome σ ρ}
    (ran : Tree.runArm runner enter around arm cell state = some out) :
    Passes (fun left => Tree.runArm runner.limited enterLimited around arm cell (left, state))
      fun left => out.map (left, ·) := by
  cases arm with
  | jump coord jumps =>
      rw [Tree.runArm] at ran
      have passes := Runner.passes_leave (limits_again limits) ran
      exact passes.congr fun left => by rw [Tree.runArm]
  | nested tree =>
      rw [Tree.runArm] at ran
      have passes := Tree.passes_run limits ran
      exact passes.congr fun left => by rw [Tree.runArm]

/-- The elements of a sequence come out alike within a limit that is large enough. -/
theorem Tree.passes_runElems (limits : ∀ body, Limits (enter body) (enterLimited body))
    {elems : List Tree} {cell : Cell} {state : σ} {out : Outcome σ ρ}
    (ran : Tree.runElems runner enter around elems cell state = some out) :
    Passes (fun left => Tree.runElems runner.limited enterLimited around elems cell (left, state))
      fun left => out.map (left, ·) := by
  cases elems with
  | nil =>
      cases ran
      exact .const _
  | cons tree rest =>
      rw [Tree.runElems] at ran
      by_cases isOpen : tree.isOpen cell
      · rw [if_pos isOpen] at ran
        cases first : tree.run runner enter around cell state with
        | none => simp [first] at ran
        | some outcome =>
            rw [first] at ran
            have passes := Tree.passes_run limits first
            cases outcome with
            | falls cell after =>
                obtain ⟨count, passed⟩ := passes
                obtain ⟨other, later⟩ := Tree.passes_runElems limits ran
                refine ⟨other + count, fun left => ?_⟩
                dsimp only at passed later ⊢
                rw [Tree.runElems, if_pos isOpen, ← Nat.add_assoc, passed]
                exact later left
            | leaves exit =>
                cases ran
                obtain ⟨count, passed⟩ := passes
                refine ⟨count, fun left => ?_⟩
                dsimp only at passed ⊢
                rw [Tree.runElems, if_pos isOpen, passed]
                rfl
      · rw [if_neg isOpen] at ran
        have passes := Tree.passes_runElems limits ran
        exact passes.congr fun left => by rw [Tree.runElems, if_neg isOpen]

/-- The alternative that is selected comes out alike within a limit that is large enough. -/
theorem Tree.passes_runSelected (limits : ∀ body, Limits (enter body) (enterLimited body))
    {label : Label} {alternatives : List Tree} {cell : Cell} {state : σ} {out : Outcome σ ρ}
    (ran : Tree.runSelected runner enter around label alternatives cell state = some out) :
    Passes (fun left =>
        Tree.runSelected runner.limited enterLimited around label alternatives cell (left, state))
      fun left => out.map (left, ·) := by
  cases alternatives with
  | nil => cases ran
  | cons tree rest =>
      rw [Tree.runSelected] at ran
      by_cases selected : runner.selects label cell tree.head
      · rw [if_pos selected] at ran
        have passes := Tree.passes_run limits ran
        refine passes.congr fun left => ?_
        rw [Tree.runSelected]
        exact if_pos selected
      · rw [if_neg selected] at ran
        have passes := Tree.passes_runSelected limits ran
        refine passes.congr fun left => ?_
        rw [Tree.runSelected]
        exact if_neg selected

end

/-- Entering loops comes out alike within a limit that is large enough. -/
theorem Runner.limits_enter (depth : Nat) (body : Tree) :
    Limits (runner.enter depth body) (runner.limited.enter depth body) := by
  induction depth generalizing body with
  | zero => exact fun _ _ _ ran => by cases ran
  | succ depth ih =>
      intro cell state exit ran
      rw [enter] at ran
      obtain ⟨out, inner, rfl⟩ := Option.map_eq_some_iff.1 ran
      have passes := (Tree.passes_run ih inner).map Outcome.close
      simp only [Outcome.close_map] at passes
      exact passes.congr fun left => by rw [enter]

end Trees

/-- The marked tree of a graph returns exactly when the graph does, and with the same value. -/
theorem IsMarkedTree.start_iff {σ ρ : Type} {graph : BlockGraph} {forest : LoopForest} {tree : Tree}
    {runner : Runner σ ρ} (checked : graph.Checked) (isOf : forest.IsOf graph)
    (isMarked : IsMarkedTree graph forest tree runner.flags) (serves : Serves runner.exec graph)
    (leads : ∀ {id state branch after}, id ∈ graph.ids →
      runner.exec id state = some (.along branch after) →
        ∃ target, graph.HasEdge ⟨id, branch⟩ target)
    (entry : runner.entry = graph.entry) {state : σ} {result : Option ρ} {after : σ} :
    (∃ depth cell, runner.start depth tree state = some (.ends result cell after)) ↔
      ∃ value, result = some value ∧
        ∃ steps, graph.run runner.exec steps graph.entry state = some (.returned value after) := by
  constructor
  · rintro ⟨depth, cell, ran⟩
    obtain ⟨out, inner, closed⟩ := Option.map_eq_some_iff.1 ran
    obtain ⟨count, passed⟩ := Tree.passes_run (runner.limits_enter depth) inner
    dsimp only at passed
    have ended : runner.limited.start depth tree (0 + count, state) =
        some (.ends result cell (0, after)) := by
      rw [Runner.start, passed, Option.map_some, Outcome.close_map, closed]
      rfl
    -- The limited run of the graph ends, and its tree ends in the same way.
    have same {final : Final (Nat × σ) ρ} (run : graph.run (limited runner.exec) (0 + count + 1)
        graph.entry (0 + count, state) = some final) :
        final.IsOf (.ends result cell (0, after)) := by
      obtain ⟨exit, ⟨deep, settled⟩, isEnd⟩ := @IsMarkedTree.exists_start _ _ graph forest tree
        runner.limited checked isOf isMarked serves.limited entry _ _ _ run
      have one := Runner.start_mono (Nat.le_max_left depth deep) ended
      have two := settled _ (Nat.le_max_right depth deep)
      exact Option.some.inj (two.symm.trans one) ▸ isEnd
    rcases checked.exists_run_limited leads checked.entry_mem with
      ⟨value, final, limitedRun, run⟩ | ⟨final, limitedRun⟩
    · cases same limitedRun
      exact ⟨value, rfl, _, run⟩
    · cases same limitedRun
  · rintro ⟨value, rfl, steps, run⟩
    obtain ⟨exit, ⟨depth, settled⟩, isEnd⟩ := isMarked.exists_start checked isOf serves entry run
    cases isEnd
    exact ⟨depth, _, settled depth (Nat.le_refl _)⟩

end GotoFree
