import GotoFree.Proofs.Parts

/-!
# Sequencing in groups

A sequence without notes is taken apart where it becomes an element of another one. So it does not
matter whether elements are put in order at once, or in groups that are put in order then: the node
is the same, and its ways out are those of all the elements in a row (`Grouping.combine_eq`).
-/

namespace GotoFree

namespace Tree

variable {elems front back : List Tree} {tree : Tree}

/-! ## Splicing -/

/-- Whether the node is taken apart where it becomes an element of a sequence. -/
def isSpliced : Tree → Bool
  | sequence label _ => label.notes.isEmpty
  | _ => false

/-- Splicing goes element by element. -/
theorem splice_append : splice (front ++ back) = splice front ++ splice back :=
  List.flatMap_append

theorem splice_cons {rest : List Tree} : splice (tree :: rest) = splice [tree] ++ splice rest :=
  @splice_append [tree] rest

/-- A tree that is no plain sequence is spliced as it is. -/
theorem splice_of_not_isSpliced (whole : tree.isSpliced = false) : splice [tree] = [tree] := by
  cases tree with
  | sequence label inner =>
      rw [isSpliced] at whole
      simp [splice, whole]
  | jump | conditional | loop | merge => rfl

/-- A plain sequence is spliced into its elements. -/
theorem splice_sequence {head : BlockId} {jumps : Jumps} :
    splice [sequence ⟨head, jumps, .none⟩ elems] = elems :=
  List.append_nil elems

/-- The node has been made to run two elements or more in order; a single one stands for itself. -/
def IsComposed (tree : Tree) : Prop :=
  ∃ elems, 2 ≤ (splice elems).length ∧ ofSequence elems = .ok tree

/-- If a node is taken apart, there are two elements in it or more. -/
def Proper (tree : Tree) : Prop := tree.isSpliced = true → 2 ≤ (splice [tree]).length

/-- Putting elements in order depends on what they are spliced into only. -/
theorem ofSequence_congr (same : splice front = splice back) :
    ofSequence front = ofSequence back := by
  unfold ofSequence
  rw [same]

/-- A sequence of one element is that element. -/
theorem ofSequence_of_single (flat : splice elems = [tree]) : ofSequence elems = .ok tree := by
  unfold ofSequence
  rw [flat]
  rfl

/-- A sequence of several elements is refused if one of them has no head. -/
theorem ofSequence_of_several {first second : Tree} {rest : List Tree}
    (flat : splice elems = first :: second :: rest) :
    ofSequence elems = if anyHeadless (second :: rest) then .error .headlessSequence
      else .ok (sequence ⟨first.head, sequenceJumps (splice elems), .none⟩ (splice elems)) := by
  unfold ofSequence
  rw [flat]
  rfl

/-- What is made of two elements or more has these elements. -/
theorem eq_sequence (several : 2 ≤ (splice elems).length) (made : ofSequence elems = .ok tree) :
    ∃ first rest, splice elems = first :: rest ∧
      tree = sequence ⟨first.head, sequenceJumps (splice elems), .none⟩ (splice elems) := by
  match flat : splice elems with
  | [] | [_] =>
      rw [flat] at several
      exact absurd several (by simp)
  | first :: second :: rest =>
      rw [ofSequence_of_several flat, flat] at made
      split at made
      · cases made
      · cases made
        exact ⟨first, second :: rest, rfl, rfl⟩

/-- A tree that was composed is proper. -/
theorem IsComposed.proper (composed : tree.IsComposed) : tree.Proper := by
  obtain ⟨elems, several, made⟩ := composed
  obtain ⟨first, rest, -, rfl⟩ := eq_sequence several made
  intro _
  rwa [splice_sequence]

/-- A proper tree is not spliced away. -/
theorem Proper.splice_ne_nil (proper : tree.Proper) : splice [tree] ≠ [] := by
  cases spliced : tree.isSpliced with
  | false =>
      rw [splice_of_not_isSpliced spliced]
      exact List.cons_ne_nil _ _
  | true =>
      intro none
      have several := proper spliced
      rw [none] at several
      exact absurd several (by decide)

/-- Some tree is headless if one of them is. -/
theorem anyHeadless_iff {trees : List Tree} :
    anyHeadless trees = true ↔ ∃ tree ∈ trees, tree.isHeadless = true := by
  induction trees with
  | nil => simp [anyHeadless]
  | cons first rest ih => simp [anyHeadless, ih]

/-- An element behind the first one of a part is behind the first one of the whole. -/
theorem anyHeadless_tail_append
    (headless : anyHeadless front.tail = true ∨ anyHeadless back.tail = true) :
    anyHeadless (front ++ back).tail = true := by
  simp only [anyHeadless_iff] at headless ⊢
  obtain ⟨tree, member, isHeadless⟩ | ⟨tree, member, isHeadless⟩ := headless
  · cases front with
    | nil => cases member
    | cons first rest => exact ⟨tree, List.mem_append_left _ member, isHeadless⟩
  · cases front with
    | nil => exact ⟨tree, member, isHeadless⟩
    | cons first rest =>
        exact ⟨tree, List.mem_append_right _ (List.mem_of_mem_tail member), isHeadless⟩

/-- Elements behind the first one that cannot be entered are not put in order. -/
theorem ofSequence_headless (headless : anyHeadless (splice elems).tail = true) :
    ofSequence elems = .error .headlessSequence := by
  match flat : splice elems with
  | [] | [_] =>
      rw [flat] at headless
      cases headless
  | first :: second :: rest =>
      rw [flat, List.tail_cons] at headless
      rw [ofSequence_of_several flat, if_pos headless]

/-- Other elements are put in order: the node is taken apart into what they are spliced into, and it
starts where they start. -/
theorem exists_ofSequence_of_proper (nonempty : elems ≠ []) (proper : ∀ tree ∈ elems, tree.Proper)
    (headed : anyHeadless (splice elems).tail = false) :
    ∃ tree, ofSequence elems = .ok tree ∧ tree.Proper ∧ splice [tree] = splice elems ∧
      (splice elems).head?.map head = some tree.head := by
  obtain ⟨first, rest, rfl⟩ := List.exists_cons_of_ne_nil nonempty
  have properFirst := proper first List.mem_cons_self
  match flat : splice (first :: rest) with
  | [] =>
      rw [splice_cons] at flat
      exact absurd (List.append_eq_nil_iff.1 flat).1 properFirst.splice_ne_nil
  | [only] =>
      -- The first element is spliced into this one alone, and so it is not taken apart.
      have whole : first.isSpliced = false := by
        refine Bool.eq_false_iff.2 fun spliced => ?_
        have several := properFirst spliced
        have length := congrArg List.length flat
        rw [splice_cons, List.length_append, List.length_singleton] at length
        omega
      have isOnly : first = only := by
        rw [splice_cons, splice_of_not_isSpliced whole] at flat
        exact (List.cons.inj flat).1
      subst isOnly
      exact ⟨first, ofSequence_of_single flat, properFirst, splice_of_not_isSpliced whole, rfl⟩
  | one :: second :: others =>
      rw [flat, List.tail_cons] at headed
      have made := ofSequence_of_several flat
      rw [headed, if_neg Bool.false_ne_true, flat] at made
      refine ⟨_, made, fun _ => ?_, splice_sequence, rfl⟩
      rw [splice_sequence]
      simp

/-! ## Ways out -/

/-- The ways out of elements that are run in order: plain flow that enters no later element, and all
else. If several elements leave a loop along one coordinate, the last of them counts. -/
structure InOrder (elems : List Tree) (jumps : Jumps) : Prop where
  flow : ∀ edge, edge ∈ jumps.flow ↔ ∃ before tree later, elems = before ++ tree :: later ∧
    edge ∈ tree.jumps.flow ∧ ∀ other ∈ later, edge.2 ∉ other.heads
  breaks : ∀ coord, jumps.breaks.get? coord =
    elems.reverse.findSome? fun tree => tree.jumps.breaks.get? coord
  continues : ∀ edge, edge ∈ jumps.continues ↔ ∃ tree ∈ elems, edge ∈ tree.jumps.continues
  returns : ∀ coord, coord ∈ jumps.returns ↔ ∃ tree ∈ elems, coord ∈ tree.jumps.returns

/-- The jumps of a sequence are those of its first element and of the rest. -/
theorem sequenceJumps_cons {rest : List Tree} : sequenceJumps (tree :: rest) =
    (tree.jumpsBefore (sequenceEnds rest).2).union (sequenceJumps rest) :=
  rfl

/-- The flow of a sequence is that of its first element past the rest, and that of the rest. -/
theorem mem_flow_cons {rest : List Tree} {edge : Edge} :
    edge ∈ (sequenceJumps (tree :: rest)).flow ↔
      (edge ∈ tree.jumps.flow ∧ ∀ other ∈ rest, edge.2 ∉ other.heads) ∨
        edge ∈ (sequenceJumps rest).flow := by
  simp [sequenceJumps_cons, Jumps.union, jumpsBefore, mem_later]

/-- The jumps of a sequence are in the order of its elements. -/
theorem inOrder_sequenceJumps : InOrder elems (sequenceJumps elems) where
  flow edge := by
    induction elems with
    | nil => simp [sequenceJumps, sequenceEnds, Jumps.none]
    | cons first rest ih =>
        rw [mem_flow_cons, ih]
        constructor
        · rintro (⟨leads, passes⟩ | ⟨before, tree, later, rfl, leads, passes⟩)
          · exact ⟨[], first, rest, rfl, leads, passes⟩
          · exact ⟨first :: before, tree, later, rfl, leads, passes⟩
        · rintro ⟨before, tree, later, place, leads, passes⟩
          cases before with
          | nil =>
              cases place
              exact .inl ⟨leads, passes⟩
          | cons other before =>
              cases place
              exact .inr ⟨before, tree, later, rfl, leads, passes⟩
  breaks coord := by
    induction elems with
    | nil => rfl
    | cons first rest ih =>
        rw [sequenceJumps_cons, Jumps.union, SortedMap.get?_union, ih, List.reverse_cons,
          List.findSome?_append, List.findSome?_singleton]
        rfl
  continues edge := by
    induction elems with
    | nil => simp [sequenceJumps, sequenceEnds, Jumps.none]
    | cons first rest ih => simp [sequenceJumps_cons, Jumps.union, jumpsBefore, ih]
  returns coord := by
    induction elems with
    | nil => simp [sequenceJumps, sequenceEnds, Jumps.none]
    | cons first rest ih => simp [sequenceJumps_cons, Jumps.union, jumpsBefore, ih]

end Tree

/-! ## Groups -/

/-- How elements are put in order: one by itself, or groups one after the other. -/
inductive Grouping where
  | elem (tree : Tree)
  | group (first : Grouping) (rest : List Grouping)

namespace Grouping

mutual

/-- The elements in a row. -/
def elems : Grouping → List Tree
  | elem tree => [tree]
  | group first rest => first.elems ++ elemsOfAll rest

/-- The elements of groups in a row. -/
def elemsOfAll : List Grouping → List Tree
  | [] => []
  | first :: rest => first.elems ++ elemsOfAll rest

end

mutual

/-- The node that the elements become: each group is put in order before the one around it. -/
def combine : Grouping → Except Defect Tree
  | elem tree => return tree
  | group first rest => do
      let head ← first.combine
      let others ← combineAll rest
      Tree.ofSequence (head :: others)

/-- The nodes that groups become. -/
def combineAll : List Grouping → Except Defect (List Tree)
  | [] => return []
  | first :: rest => do
      let head ← first.combine
      let others ← combineAll rest
      return head :: others

end

/-- What elements in groups have become: nodes that are spliced into the same elements, unless an
element behind the first one cannot be entered. -/
inductive Becomes (elems : List Tree) : Except Defect (List Tree) → Prop
  | made {trees : List Tree} (proper : ∀ tree ∈ trees, tree.Proper)
      (same : Tree.splice trees = Tree.splice elems) : Becomes elems (.ok trees)
  | headless (headless : Tree.anyHeadless (Tree.splice elems).tail = true) :
      Becomes elems (.error .headlessSequence)

variable {first : Grouping} {rest : List Grouping}

/-- Elements become trees one after the other. -/
theorem Becomes.cons (one : Becomes first.elems ((fun tree => [tree]) <$> first.combine))
    (others : Becomes (elemsOfAll rest) (combineAll rest)) :
    Becomes (elemsOfAll (first :: rest)) (combineAll (first :: rest)) := by
  rw [combineAll, elemsOfAll]
  cases made : first.combine with
  | error defect =>
      rw [made] at one
      cases one with
      | headless headless =>
          refine .headless ?_
          rw [Tree.splice_append]
          exact Tree.anyHeadless_tail_append (.inl headless)
  | ok tree =>
      rw [made] at one
      cases one with
      | made proper same =>
          generalize combineAll rest = found at others
          cases others with
          | headless headless =>
              refine .headless ?_
              rw [Tree.splice_append]
              exact Tree.anyHeadless_tail_append (.inr headless)
          | made properOthers sameOthers =>
              refine .made (List.forall_mem_cons.2 ⟨?_, properOthers⟩) ?_
              · exact List.forall_mem_singleton.1 proper
              · rw [Tree.splice_cons, same, sameOthers, Tree.splice_append]

/-- Elements in groups are put in order like those in a row. -/
theorem Becomes.ofSequence_eq {elems : List Tree} {found : Except Defect (List Tree)}
    (becomes : Becomes elems found) : found >>= Tree.ofSequence = Tree.ofSequence elems := by
  cases becomes with
  | made proper same => exact Tree.ofSequence_congr same
  | headless headless => exact (Tree.ofSequence_headless headless).symm

/-- A group is combined to a sequence of what its parts are combined to. -/
theorem combine_group :
    (group first rest).combine = combineAll (first :: rest) >>= Tree.ofSequence := by
  rw [combine, combineAll]
  simp only [bind_assoc, pure_bind]

theorem elems_ne_nil : (grouping : Grouping) → grouping.elems ≠ []
  | elem _ => List.cons_ne_nil _ _
  | group first _ => fun none => first.elems_ne_nil (List.append_eq_nil_iff.1 none).1

mutual

/-- A grouping of proper trees becomes one tree of its elements. -/
theorem becomes_combine (grouping : Grouping) (proper : ∀ tree ∈ grouping.elems, tree.Proper) :
    Becomes grouping.elems ((fun tree => [tree]) <$> grouping.combine) := by
  cases grouping with
  | elem tree => exact .made proper rfl
  | group first rest =>
      obtain ⟨properFirst, properRest⟩ := List.forall_mem_append.1 proper
      have becomes := (becomes_combine first properFirst).cons (becomes_combineAll rest properRest)
      rw [combine_group, becomes.ofSequence_eq]
      cases headed : Tree.anyHeadless (Tree.splice (elemsOfAll (first :: rest))).tail with
      | true =>
          rw [Tree.ofSequence_headless headed]
          exact .headless headed
      | false =>
          obtain ⟨tree, made, isProper, same, -⟩ :=
            Tree.exists_ofSequence_of_proper (group first rest).elems_ne_nil proper headed
          rw [elems, ← elemsOfAll] at made same
          rw [made]
          exact .made (List.forall_mem_singleton.2 isProper) same

/-- Groupings of proper trees become trees of their elements. -/
theorem becomes_combineAll (list : List Grouping)
    (proper : ∀ tree ∈ elemsOfAll list, tree.Proper) :
    Becomes (elemsOfAll list) (combineAll list) := by
  cases list with
  | nil => exact .made nofun rfl
  | cons first rest =>
      obtain ⟨properFirst, properRest⟩ := List.forall_mem_append.1 proper
      exact (becomes_combine first properFirst).cons (becomes_combineAll rest properRest)

end

/-- Sequencing is associative. Elements that are put in order in groups become the same node, or
fail in the same way, as those in a row, if each element that is taken apart has been made by
sequencing. They become a node unless one behind the first is entered through a sequence without
elements. The node is taken apart into what the elements are spliced into and starts where they
start, and if these are two or more, its ways out are theirs in order. It may be an element in its
turn. -/
theorem combine_eq {first : Grouping} {rest : List Grouping}
    (composed : ∀ tree ∈ (group first rest).elems, tree.isSpliced = true → tree.IsComposed) :
    let elems := (group first rest).elems
    let children := Tree.splice elems
    (group first rest).combine = Tree.ofSequence elems ∧
      ((∃ tree, Tree.ofSequence elems = .ok tree) ↔ Tree.anyHeadless children.tail = false) ∧
      ∀ tree, Tree.ofSequence elems = .ok tree →
        Tree.splice [tree] = children ∧ children.head?.map Tree.head = some tree.head ∧
          (2 ≤ children.length → Tree.InOrder children tree.jumps) ∧
          (tree.isSpliced = true → tree.IsComposed) := by
  intro elems children
  have proper : ∀ tree ∈ elems, tree.Proper := fun tree member spliced =>
    (composed tree member spliced).proper spliced
  obtain ⟨properFirst, properRest⟩ := List.forall_mem_append.1 proper
  have becomes := (becomes_combine first properFirst).cons (becomes_combineAll rest properRest)
  have whole : Tree.anyHeadless children.tail = false → ∃ tree, Tree.ofSequence elems = .ok tree ∧
      tree.Proper ∧ Tree.splice [tree] = children ∧
      children.head?.map Tree.head = some tree.head :=
    Tree.exists_ofSequence_of_proper (elems_ne_nil _) proper
  have headed {tree : Tree} (made : Tree.ofSequence elems = .ok tree) :
      Tree.anyHeadless children.tail = false := by
    refine Bool.eq_false_iff.2 fun headless => ?_
    rw [Tree.ofSequence_headless headless] at made
    cases made
  refine ⟨?_, ⟨fun ⟨tree, made⟩ => headed made, fun headed => ?_⟩, fun tree made => ?_⟩
  · rw [combine_group, becomes.ofSequence_eq]
    rfl
  · obtain ⟨tree, made, -⟩ := whole headed
    exact ⟨tree, made⟩
  · obtain ⟨other, isOther, isProper, same, starts⟩ := whole (headed made)
    cases made.symm.trans isOther
    refine ⟨same, starts, fun several => ?_, fun spliced => ⟨elems, ?_, made⟩⟩
    · obtain ⟨-, -, -, rfl⟩ := Tree.eq_sequence several made
      exact Tree.inOrder_sequenceJumps
    · have several := isProper spliced
      rwa [same] at several

/-- A block that goes on to another one. -/
def step (id target : UInt32) : Tree :=
  .jump ⟨⟨id⟩, .ofFlow ⟨⟨id⟩, .exit⟩ ⟨target⟩, .none⟩ ⟨⟨id⟩, .exit⟩

/-- Two blocks in order. -/
def twoSteps : Tree :=
  .sequence ⟨⟨1⟩, Tree.sequenceJumps [step 1 2, step 2 3], .none⟩ [step 1 2, step 2 3]

/-- Four blocks of which the two in the middle have been put in order before, and are grouped with
the first one then. -/
def fourSteps : Grouping := .group (.group (.elem (step 0 1)) [.elem twoSteps]) [.elem (step 3 4)]

/-- Four steps are combined as their three elements are in a row, with the jumps of all four. -/
theorem combine_eq_fourSteps :
    fourSteps.combine = Tree.ofSequence [step 0 1, twoSteps, step 3 4] ∧
      ∃ tree, fourSteps.combine = .ok tree ∧
        Tree.InOrder [step 0 1, step 1 2, step 2 3, step 3 4] tree.jumps := by
  have composed : ∀ tree ∈ fourSteps.elems, tree.isSpliced = true → tree.IsComposed := by
    intro tree member spliced
    obtain rfl | rfl | rfl : tree = step 0 1 ∨ tree = twoSteps ∨ tree = step 3 4 := by
      simpa [fourSteps, elems, elemsOfAll] using member
    · cases spliced
    · exact ⟨[step 1 2, step 2 3], by decide, rfl⟩
    · cases spliced
  obtain ⟨same, made, each⟩ := combine_eq composed
  obtain ⟨tree, isTree⟩ := made.2 rfl
  obtain ⟨-, -, inOrder, -⟩ := each tree isTree
  exact ⟨same, tree, same.trans isTree, inOrder (by decide)⟩

end Grouping

end GotoFree
