import GotoFree.Proofs.ScalarCode
import GotoFree.Proofs.Waiting

/-!
# Scalar methods are lowered

The marked tree of a scalar method is lowered whatever was lowered before it, and its code leaves
the scope as it was (`Job.Celled.succeeds_tree`).
-/

namespace GotoFree

open LoopForest

namespace Job

variable {job : Job} {graph : BlockGraph} {cells : Cells} {scope : Scope}

/-- What is known of the cells of a scope is known of them inside a loop. -/
theorem Celled.insideLoop (celled : job.Celled cells scope) (frame : LoopFrame) :
    job.Celled cells (scope.insideLoop frame) :=
  ⟨celled.control, celled.locals, celled.areMutable, celled.scalars⟩

/-! ## Tests -/

/-- A test on flags is built if there is a flag to compare with. -/
theorem succeeds_flagTest {flags : List Int} (inhabited : flags ≠ []) :
    Lower.Succeeds (flagTest flags) fun _ => True := by
  unfold flagTest
  split
  · exact .pure trivial
  · next none => exact absurd none (anyOf?_ne_none inhabited)

/-- A gate is built if it waits for some coordinate. -/
theorem succeeds_gate {coords : CoordSet} (inhabited : ∃ coord, coord ∈ coords) :
    Lower.Succeeds (gate coords) fun _ => True := by
  refine (Lower.Succeeds.mapM fun coord _ => .flag).bind fun flags same => succeeds_flagTest ?_
  obtain ⟨coord, member⟩ := inhabited
  rintro rfl
  rw [List.length_nil, eq_comm, List.length_eq_zero_iff] at same
  exact List.not_mem_nil (same ▸ SortedSet.mem_toList.2 member)

/-- A conditional return is built in any case: without coordinates there is none. -/
theorem succeeds_returnIf {coords : CoordSet} {value : Target.Expr} :
    Lower.Succeeds (returnIf coords value) fun _ => True := by
  unfold returnIf
  split
  · exact .pure trivial
  · next some =>
    have inhabited : ∃ coord, coord ∈ coords := by
      simpa [SortedSet.isEmpty_iff] using some
    exact (succeeds_gate inhabited).bind fun _ _ => .pure trivial

theorem succeeds_returnAfter {label : Label} :
    Lower.Succeeds (job.returnAfter scope label) fun _ => True :=
  succeeds_returnIf.bind fun _ _ => succeeds_returnIf.bind fun _ _ => .pure trivial

/-- A jump is lowered if the function that it runs again is there. -/
theorem succeeds_jump {coord : Coord}
    (within : coord ∈ job.flags.recursing → scope.loop.isSome = true) :
    Lower.Succeeds (job.jump scope coord) fun _ => True := by
  unfold jump
  refine (succeeds_record coord).bind fun recording _ => ?_
  split
  · next recursing =>
    obtain ⟨frame, isLoop⟩ := Option.isSome_iff_exists.1 (within recursing)
    rw [isLoop]
    exact .pure trivial
  · split <;> exact .pure trivial

/-! ## Trees -/

section Trees

variable {forest : LoopForest} {around : Option Loop}

/-- The test of an alternative of a merge is built if its entry is entered somehow. -/
theorem succeeds_alternativeTest (checked : graph.Checked) (entry : job.method.entry = graph.entry)
    {label : Label} {incoming : Incoming} (noted : label.notes.chooseBy = some incoming)
    {alternatives : List Tree} (incoming_iff : ∀ entry coords, incoming.get? entry = some coords ↔
      entry ∈ Tree.headsOfAll alternatives ∧ coords = .ofList (graph.inCoords entry))
    {head : BlockId} (known : head ∈ graph.ids) (isHead : head ∈ Tree.headsOfAll alternatives) :
    Lower.Succeeds (job.alternativeTest label head) fun _ => True := by
  have found := (incoming_iff head _).2 ⟨isHead, rfl⟩
  unfold alternativeTest
  simp only [noted, found]
  refine (Lower.Succeeds.mapM fun coord _ => .flag).bind fun flags same => succeeds_flagTest ?_
  split
  · simp
  · next other =>
    obtain ⟨coord, leads⟩ := checked.exists_inCoord known fun same => other (same.trans entry.symm)
    have member : coord ∈ SortedSet.ofList (graph.inCoords head) := SortedSet.mem_ofList.2 leads
    rintro rfl
    rw [List.length_nil, eq_comm, List.length_eq_zero_iff] at same
    exact List.not_mem_nil (same ▸ SortedSet.mem_toList.2 member)

/-- The alternatives of a merge are lowered if their tests and their trees are. -/
theorem succeeds_alternatives {label : Label} {alternatives : List Tree}
    (tests : ∀ tree ∈ alternatives,
      Lower.Succeeds (job.alternativeTest label tree.head) fun _ => True)
    (trees : ∀ tree ∈ alternatives, Lower.Succeeds (job.tree scope tree) fun _ => True) :
    Lower.Succeeds (job.alternatives scope label alternatives) fun _ => True := by
  induction alternatives with
  | nil => exact .pure trivial
  | cons tree rest ih =>
      unfold alternatives
      refine (tests tree (by simp)).bind fun _ _ => (trees tree (by simp)).bind fun _ _ => ?_
      exact (ih (fun other member => tests other (List.mem_cons_of_mem _ member))
        fun other member => trees other (List.mem_cons_of_mem _ member)).bind fun _ _ =>
          .pure trivial

/-- The elements of a sequence are lowered if their gates and their trees are. -/
theorem succeeds_elems {elems : List Tree}
    (gates : ∀ tree ∈ elems, ∀ coords, tree.notes.gateOn = some coords →
      ∃ coord, coord ∈ coords)
    (trees : ∀ tree ∈ elems, Lower.Succeeds (job.tree scope tree) fun answer => answer.2 = scope) :
    Lower.Succeeds (job.elems scope elems) fun answer => answer.2 = scope := by
  induction elems with
  | nil => exact .pure rfl
  | cons tree rest ih =>
      have later := ih (fun other member => gates other (List.mem_cons_of_mem _ member))
        fun other member => trees other (List.mem_cons_of_mem _ member)
      unfold Job.elems
      split
      · next coords gate =>
        refine (succeeds_gate (gates tree (by simp) coords gate)).bind fun _ _ => ?_
        refine (trees tree (by simp)).bind fun _ _ => ?_
        exact later.bind fun _ same => .pure same
      · refine (trees tree (by simp)).bind ?_
        rintro ⟨own, _⟩ rfl
        exact later.bind fun _ same => .pure same

/-- An arm is lowered if its jump or its tree is. -/
theorem succeeds_arm {arm : Arm}
    (jumps : ∀ coord ways, arm = .jump coord ways →
      coord ∈ job.flags.recursing → scope.loop.isSome = true)
    (nested : ∀ tree, arm = .nested tree → Lower.Succeeds (job.tree scope tree) fun _ => True) :
    Lower.Succeeds (job.arm scope arm) fun _ => True := by
  cases arm with
  | jump coord ways => exact (succeeds_jump (jumps coord ways rfl)).bind fun _ _ => .pure trivial
  | nested tree => exact (nested tree rfl).bind fun _ _ => .pure trivial

/-- What follows a loop is lowered if the loop around it is there to be run again. -/
theorem succeeds_recurseAfter {label : Label} {exits : CoordSet}
    (noted : label.notes.recurseOn = some exits)
    (within : ∀ coord ∈ exits, scope.loop.isSome = true) :
    Lower.Succeeds (job.recurseAfter scope label) fun _ => True := by
  unfold recurseAfter
  simp only [noted, Option.getD_some]
  split
  · exact .pure trivial
  · next some =>
    obtain ⟨coord, member⟩ : ∃ coord, coord ∈ exits := by
      simpa [SortedSet.isEmpty_iff] using some
    obtain ⟨frame, isLoop⟩ := Option.isSome_iff_exists.1 (within coord member)
    rw [isLoop]
    exact succeeds_returnIf

/-- A coordinate that runs its own loop again is within a loop. -/
theorem isSome_of_recursing {flags : Flags} (areOf : flags.AreOf graph forest) {coord : Coord}
    (direct : forest.innermost? coord.block = around) (recursing : coord ∈ flags.recursing) :
    around.isSome = true := by
  obtain ⟨loop, -, innermost⟩ := (areOf.recursing_iff coord).1 recursing
  rw [← direct, innermost]
  rfl

/-- The marked tree of a scalar method is lowered. -/
theorem Celled.succeeds_tree (isScalar : job.IsScalar graph) (isOf : forest.IsOf graph)
    (areOf : job.flags.AreOf graph forest) {recorded : CoordSet} {tree : Tree}
    (fits : GotoFree.Fits graph forest (Noted graph forest recorded) around tree) :
    forest.Owns around → ∀ {scope : Scope}, job.Celled cells scope →
      (around.isSome = true → scope.loop.isSome = true) →
      Lower.Succeeds (job.tree scope tree) fun answer => answer.2 = scope := by
  have checked := BlockGraph.checked_ofBlocks isScalar.built
  have entry : job.method.entry = graph.entry := (Lower.entry_of_built isScalar.built).symm
  induction fits with
  | @jump around label part noted direct straight leaves =>
      intro owns scope celled within
      have known := isOf.blocksOf_known owns (part.inside label.head (by simp))
      unfold Job.tree
      refine (celled.succeeds_block isScalar known).bind ?_
      rintro lowered ⟨same, -, -⟩
      split
      · exact .pure same
      · rw [same]
        refine (succeeds_jump fun recursing => within ?_).bind fun _ _ => .pure rfl
        exact isSome_of_recursing areOf direct recursing
  | @conditional around label taken notTaken one two part noted direct branching edges takenArm
      notTakenArm takenLeaves notTakenLeaves takenFits notTakenFits takenIh notTakenIh =>
      intro owns scope celled within
      have known := isOf.blocksOf_known owns (part.inside label.head (by simp))
      have jumps {branch : Branch} {target : BlockId} {arm : Arm}
          (isArm : IsArm graph forest around ⟨label.head, branch⟩ target arm) (coord : Coord)
          (ways : Jumps) (same : arm = .jump coord ways) (recursing : coord ∈ job.flags.recursing) :
          scope.loop.isSome = true := by
        subst same
        cases isArm
        exact within (isSome_of_recursing areOf direct recursing)
      unfold Job.tree
      refine (celled.succeeds_block isScalar known).bind ?_
      rintro lowered ⟨same, condition, -⟩
      obtain ⟨test, isTest⟩ := Option.isSome_iff_exists.1 (condition.trans branching)
      simp only [isTest, same]
      refine (succeeds_arm (jumps takenArm) fun tree same =>
        (takenIh tree same owns celled within).imp fun _ _ => trivial).bind fun _ _ => ?_
      exact (succeeds_arm (jumps notTakenArm) fun tree same =>
        (notTakenIh tree same owns celled within).imp fun _ _ => trivial).bind fun _ _ => .pure rfl
  | @sequence around label first rest part noted chain flat fits ih =>
      intro owns scope celled within
      unfold Job.tree
      refine succeeds_elems (fun tree member coords gate => ?_) fun tree member =>
        ih tree member owns celled within
      rcases List.mem_cons.1 member with rfl | member
      · cases noted.1.symm.trans gate
      · exact inhabited_of_allGated noted.2 tree member coords gate
  | @loop around label body loop part noted nested head heads whole fits ih =>
      intro owns scope celled within
      unfold Job.tree
      have inner := ih (owns_some (owns.mem_all (Loop.mem_flattenAll_of_mem nested)))
        (celled.insideLoop (job.loopFrame scope label)) fun _ => rfl
      refine inner.bind fun _ _ => Lower.Succeeds.addHelper.bind fun _ _ => ?_
      refine (succeeds_recurseAfter noted.1 fun coord member => within ?_).bind fun _ _ =>
        succeeds_returnAfter.bind fun _ _ => .pure rfl
      obtain ⟨own, -, isHead⟩ := mem_recursingExits.1 member
      cases around with
      | none => cases isHead
      | some => rfl
  | @merge around label alternatives incoming part noted heads several isEntry incoming_iff leaves
      fits ih =>
      intro owns scope celled within
      unfold Job.tree
      refine (succeeds_alternatives (fun tree member => ?_) fun tree member =>
        (ih tree member owns celled within).imp fun _ _ => trivial).bind fun _ _ => .pure rfl
      obtain ⟨own, isOwn, single⟩ := exists_of_mem_right heads member
      have same : tree.head = own :=
        SortedSet.mem_singleton.1 (single ▸ (fits tree member).part.head_mem)
      have isHead : tree.head ∈ Tree.headsOfAll alternatives := same ▸ SortedSet.mem_toList.1 isOwn
      exact succeeds_alternativeTest checked entry noted.1 incoming_iff
        (isOf.blocksOf_known owns (part.inside _ (part.heads_mem _ isHead))) isHead

end Trees

end Job

end GotoFree
