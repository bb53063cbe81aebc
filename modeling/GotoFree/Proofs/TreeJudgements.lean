import GotoFree.Proofs.Callees
import GotoFree.Proofs.Nesting

/-!
# Judgements on the code of trees

A judgement on steps of lowering carries over from the parts of a tree to the tree. There are two
kinds here. One depends on the loops and blocks that are lowered in a step only: which functions it
makes, say, or which methods it asks for (`Job.Tallies.tree`). The other one is about the scope
that a step leaves, if it starts in a good one (`Job.Preserves.tree`).
-/

namespace GotoFree.Job

open Target (Script)

/-- A judgement on steps, with the heads of the loops and with the blocks that are lowered in them,
carries over to composite steps. -/
structure Tallies (job : Job)
    (judges : ∀ {α : Type}, Lower α → List BlockId → List BlockId → Prop) : Prop where
  /-- A step that hands out nothing lowers no loop and no block. -/
  still {α : Type} {step : Lower α} : Lower.Still step → judges step [] []
  bind {α β : Type} {first : Lower α} {rest : α → Lower β}
    {heads blocks more others : List BlockId} : judges first heads blocks →
      (∀ value, judges (rest value) more others) →
        judges (first >>= rest) (heads ++ more) (blocks ++ others)
  reject {α : Type} {reason : Rejection} {heads blocks : List BlockId} :
    judges (Lower.reject reason : Lower α) heads blocks
  block {scope : Scope} {id : BlockId} : judges (job.block scope id) [] [id]
  helper {head : BlockId} {scope after : Scope} {steps : Script} :
    judges (Lower.addHelper ⟨job.loopName head, job.loopParams scope, job.closed after steps⟩)
      [head] []
  /-- The function of a loop is made after those of the loops in it. -/
  perm {α : Type} {step : Lower α} {heads more blocks : List BlockId} : heads.Perm more →
    judges step heads blocks → judges step more blocks

namespace Tallies

variable {job : Job} {judges : ∀ {α : Type}, Lower α → List BlockId → List BlockId → Prop}
  {α β : Type} {heads blocks : List BlockId}

/-- Nothing is lowered after the first part of a step. -/
theorem last (tallies : job.Tallies judges) {first : Lower α} {rest : α → Lower β}
    (one : judges first heads blocks) (others : ∀ value, Lower.Still (rest value)) :
    judges (first >>= rest) heads blocks := by
  have both := tallies.bind one fun value => tallies.still (others value)
  rwa [List.append_nil, List.append_nil] at both

/-- Nothing is lowered in the first part of a step. -/
theorem skip (tallies : job.Tallies judges) {first : Lower α} {rest : α → Lower β}
    (one : Lower.Still first) (others : ∀ value, judges (rest value) heads blocks) :
    judges (first >>= rest) heads blocks :=
  tallies.bind (tallies.still one) others

/-- A block is lowered in the first part of a step. -/
theorem enter (tallies : job.Tallies judges) {scope : Scope} {id : BlockId}
    {rest : Lowered → Lower β}
    (others : ∀ body, judges (rest body) heads blocks) :
    judges (job.block scope id >>= rest) heads (id :: blocks) :=
  tallies.bind tallies.block others

/-- A function is made for a loop when its body has been lowered. -/
theorem loop (tallies : job.Tallies judges) {scope : Scope} {head : BlockId}
    {body : Lower (Script × Scope)}
    {rest : Script × Scope → PUnit → Lower β} (inner : judges body heads blocks)
    (others : ∀ code answer, Lower.Still (rest code answer)) :
    judges (body >>= fun code => Lower.addHelper
      ⟨job.loopName head, job.loopParams scope, job.closed code.2 code.1⟩ >>= rest code)
      (head :: heads) blocks := by
  have both := tallies.bind inner fun code =>
    tallies.last (@tallies.helper head scope code.2 code.1) (others code)
  rw [List.append_nil] at both
  exact tallies.perm (List.perm_append_singleton head heads) both

mutual

/-- A judgement that carries over to composite steps holds of the code of every tree. -/
theorem tree (tallies : job.Tallies judges) {scope : Scope} {tree : Tree}
    (around : Option BlockId) :
    judges (job.tree scope tree) ((tree.nestings around).map Prod.fst) tree.blocks := by
  cases tree with
  | jump label coord =>
      rw [Job.tree, Tree.nestings, Tree.blocks_jump]
      refine tallies.enter fun body => tallies.still ?_
      split
      · exact .pure
      · exact still_jump.bind fun code => .pure
  | conditional label taken notTaken =>
      rw [Job.tree, Tree.nestings, Tree.blocks_conditional, List.map_append]
      refine tallies.enter fun body => ?_
      split
      · exact tallies.reject
      · exact tallies.bind (tallies.arm around) fun thenBranch =>
          tallies.last (tallies.arm around) fun elseBranch => .pure
  | sequence label elems =>
      rw [Job.tree, Tree.nestings, Tree.blocks_sequence]
      exact tallies.elems around
  | loop label entries body =>
      rw [Job.tree, Tree.nestings, Tree.blocks_loop, List.map_cons]
      exact tallies.loop (tallies.tree (some label.head)) fun code answer =>
        still_recurseAfter.bind fun recursing => still_returnAfter.bind fun returning => .pure
  | merge label alternatives incoming =>
      rw [Job.tree, Tree.nestings, Tree.blocks_merge]
      exact tallies.last (tallies.alternatives around) fun stmts => .pure

theorem arm (tallies : job.Tallies judges) {scope : Scope} {arm : Arm}
    (around : Option BlockId) :
    judges (job.arm scope arm) ((Tree.nestingsOfArm around arm).map Prod.fst)
      (Tree.blocksOfArm arm) := by
  cases arm with
  | jump coord jumps => exact tallies.still (still_jump.bind fun code => .pure)
  | nested tree =>
      rw [Job.arm, Tree.nestingsOfArm]
      exact tallies.last (tallies.tree around) fun code => .pure

theorem elems (tallies : job.Tallies judges) {scope : Scope} {elems : List Tree}
    (around : Option BlockId) :
    judges (job.elems scope elems) ((Tree.nestingsOfAll around elems).map Prod.fst)
      (elems.flatMap Tree.blocks) := by
  cases elems with
  | nil => exact tallies.still .pure
  | cons tree rest =>
      rw [Job.elems, List.flatMap_cons, Tree.nestingsOfAll, List.map_append]
      split
      · exact tallies.skip still_gate fun test =>
          tallies.bind (tallies.tree around) fun own =>
            tallies.last (tallies.elems around) fun others => .pure
      · exact tallies.bind (tallies.tree around) fun own =>
          tallies.last (tallies.elems around) fun others => .pure

theorem alternatives (tallies : job.Tallies judges) {scope : Scope} {merge : Label}
    {alternatives : List Tree} (around : Option BlockId) :
    judges (job.alternatives scope merge alternatives)
      ((Tree.nestingsOfAll around alternatives).map Prod.fst)
      (alternatives.flatMap Tree.blocks) := by
  cases alternatives with
  | nil => exact tallies.still .pure
  | cons tree rest =>
      rw [Job.alternatives, List.flatMap_cons, Tree.nestingsOfAll, List.map_append]
      exact tallies.skip still_alternativeTest fun test =>
        tallies.bind (tallies.tree around) fun own =>
          tallies.last (tallies.alternatives around) fun others => .pure

end

end Tallies

/-- A judgement on steps and on what they answer carries over to composite steps, and blocks lead
from good scopes to good ones. -/
structure Preserves (job : Job) (good : Scope → Prop)
    (judges : ∀ {α : Type}, Lower α → (α → Prop) → Prop) : Prop where
  pure {α : Type} {value : α} {known : α → Prop} : known value → judges (pure value) known
  bind {α β : Type} {first : Lower α} {rest : α → Lower β} {known : α → Prop} {later : β → Prop} :
    judges first known → (∀ value, known value → judges (rest value) later) →
      judges (first >>= rest) later
  internal {α : Type} {text : String} {known : α → Prop} :
    judges (Lower.reject (.internal text) : Lower α) known
  insideLoop {scope : Scope} {label : Label} : good scope →
    good (scope.insideLoop (job.loopFrame scope label))
  block {scope : Scope} {id : BlockId} : good scope →
    judges (job.block scope id) fun body => good body.scope
  jump {scope : Scope} {coord : Coord} : judges (job.jump scope coord) fun _ => True
  gate {coords : CoordSet} : judges (Job.gate coords) fun _ => True
  alternativeTest {label : Label} {head : BlockId} :
    judges (job.alternativeTest label head) fun _ => True
  addHelper {function : Target.Function} : judges (Lower.addHelper function) fun _ => True
  recurseAfter {scope : Scope} {label : Label} : judges (job.recurseAfter scope label) fun _ => True
  returnAfter {scope : Scope} {label : Label} : judges (job.returnAfter scope label) fun _ => True

namespace Preserves

variable {job : Job} {good : Scope → Prop}
  {judges : ∀ {α : Type}, Lower α → (α → Prop) → Prop}

mutual

/-- The code of every tree leads from good scopes to good ones. -/
theorem tree (rules : job.Preserves good judges) {scope : Scope} (here : good scope)
    {tree : Tree} :
    judges (job.tree scope tree) fun answer => good answer.2 := by
  cases tree with
  | jump label coord =>
      rw [Job.tree]
      refine rules.bind (rules.block here) fun body there => ?_
      split
      · exact rules.pure there
      · exact rules.bind rules.jump fun code _ => rules.pure there
  | conditional label taken notTaken =>
      rw [Job.tree]
      refine rules.bind (rules.block here) fun body there => ?_
      split
      · exact rules.internal
      · exact rules.bind (rules.arm there) fun thenBranch _ =>
          rules.bind (rules.arm there) fun elseBranch _ => rules.pure there
  | sequence label elems =>
      rw [Job.tree]
      exact rules.elems here
  | loop label entries body =>
      rw [Job.tree]
      exact rules.bind (rules.tree (rules.insideLoop here)) fun inner _ =>
        rules.bind rules.addHelper fun _ _ => rules.bind rules.recurseAfter fun recursing _ =>
          rules.bind rules.returnAfter fun returning _ => rules.pure here
  | merge label alternatives incoming =>
      rw [Job.tree]
      exact rules.bind (rules.alternatives here) fun stmts _ => rules.pure here

theorem arm (rules : job.Preserves good judges) {scope : Scope} (here : good scope)
    {arm : Arm} :
    judges (job.arm scope arm) fun _ => True := by
  cases arm with
  | jump coord jumps => exact rules.bind rules.jump fun code _ => rules.pure trivial
  | nested tree =>
      rw [Job.arm]
      exact rules.bind (rules.tree here) fun code _ => rules.pure trivial

theorem elems (rules : job.Preserves good judges) {scope : Scope} (here : good scope)
    {elems : List Tree} :
    judges (job.elems scope elems) fun answer => good answer.2 := by
  cases elems with
  | nil => exact rules.pure here
  | cons tree rest =>
      rw [Job.elems]
      split
      · exact rules.bind rules.gate fun test _ => rules.bind (rules.tree here) fun own _ =>
          rules.bind (rules.elems here) fun others last => rules.pure last
      · exact rules.bind (rules.tree here) fun own there =>
          rules.bind (rules.elems there) fun others last => rules.pure last

theorem alternatives (rules : job.Preserves good judges) {scope : Scope} (here : good scope)
    {merge : Label}
    {alternatives : List Tree} :
    judges (job.alternatives scope merge alternatives) fun _ => True := by
  cases alternatives with
  | nil => exact rules.pure trivial
  | cons tree rest =>
      rw [Job.alternatives]
      exact rules.bind rules.alternativeTest fun test _ => rules.bind (rules.tree here)
        fun own _ => rules.bind (rules.alternatives here) fun others _ => rules.pure trivial

end

end Preserves

end GotoFree.Job
