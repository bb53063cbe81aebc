import GotoFree.Flow.Flags
import GotoFree.Proofs.Parts

/-!
# Gates of a sequence

While the gates of a chain are placed, the coordinates kept for each block are those of the plain
edges that have left the elements so far and lead on (`OnItsWay`). So an element gets no gate only
if all of them lead to it, and otherwise one that lets exactly these in (`exists_gateElements`).
-/

namespace GotoFree

open LoopForest

/-! ## Coordinates on their way -/

namespace Pending

/-- A coordinate is on its way to a block. -/
def Has (pending : Pending) (coord : Coord) (target : BlockId) : Prop :=
  ∃ coords, pending.get? target = some coords ∧ coord ∈ coords

theorem not_has_empty {coord : Coord} {target : BlockId} :
    ¬ Has (SortedMap.empty : Pending) coord target := by
  simp [Has]

/-- Adding a coordinate for a block brings that coordinate on its way there. -/
theorem has_insert {pending : Pending} {coord added : Coord} {target block : BlockId} :
    Has (pending.insert block (((pending.get? block).getD .empty).insert added)) coord target ↔
      Has pending coord target ∨ (added, block) = (coord, target) := by
  unfold Has
  rw [SortedMap.get?_insert]
  by_cases same : block = target
  · subst same
    cases pending.get? block <;> simp [or_comm, eq_comm]
  · simp [same]

/-- The flow of a part is on its way after it. -/
theorem has_addFlow {pending : Pending} {jumps : Jumps} {coord : Coord} {target : BlockId} :
    Has (addFlow pending jumps) coord target ↔
      Has pending coord target ∨ (coord, target) ∈ jumps.flow := by
  rw [addFlow, ← SortedSet.mem_toList]
  generalize jumps.flow.toList = edges
  induction edges generalizing pending with
  | nil => simp
  | cons edge rest ih =>
      obtain ⟨added, block⟩ := edge
      rw [List.foldl_cons, ih, has_insert, List.mem_cons, or_assoc, @eq_comm _ (added, block)]

/-- What is on its way to some heads is taken off when they are reached. -/
theorem has_foldl_erase {heads : List BlockId} {pending : Pending} {coord : Coord}
    {target : BlockId} : Has (heads.foldl SortedMap.erase pending) coord target ↔
      Has pending coord target ∧ target ∉ heads := by
  induction heads generalizing pending with
  | nil => simp
  | cons first rest ih =>
      rw [List.foldl_cons, ih, Has, SortedMap.get?_erase]
      by_cases same : first = target
      · simp [same]
      · simp [same, Has, Ne.symm same]

/-- The coordinates on their way are those that lead somewhere. -/
theorem mem_coords_iff {pending : Pending} {coord : Coord} :
    coord ∈ coords pending ↔ ∃ target, Has pending coord target := by
  simp only [coords, SortedSet.mem_unionAll, SortedMap.mem_values_iff, Has]
  constructor
  · rintro ⟨coords, ⟨target, found⟩, member⟩
    exact ⟨target, coords, found, member⟩
  · rintro ⟨target, coords, found, member⟩
    exact ⟨coords, ⟨target, found⟩, member⟩

/-- The coordinates that reach some heads are those on their way to one of them. -/
theorem mem_reaching_iff {pending : Pending} {heads : SortedSet BlockId} {coord : Coord} :
    coord ∈ reaching pending heads ↔ ∃ target ∈ heads, Has pending coord target := by
  simp only [reaching, SortedSet.mem_unionAll, List.mem_filterMap, SortedSet.mem_toList, Has]
  constructor
  · rintro ⟨coords, ⟨target, isHead, found⟩, member⟩
    exact ⟨target, isHead, coords, found, member⟩
  · rintro ⟨target, isHead, coords, found, member⟩
    exact ⟨coords, ⟨target, isHead, found⟩, member⟩

/-- Something is on its way to every block that is listed. -/
def Populated (pending : Pending) : Prop :=
  ∀ target ∈ pending.keys, ∃ coord, Has pending coord target

theorem populated_empty : Populated .empty := by
  intro target listed
  obtain ⟨coords, found⟩ := SortedMap.mem_keys_iff.1 listed
  simp at found

/-- No block is listed for nothing after the flow of a part is added. -/
theorem populated_addFlow {pending : Pending} {jumps : Jumps} (populated : Populated pending) :
    Populated (addFlow pending jumps) := by
  rw [addFlow]
  generalize jumps.flow.toList = edges
  induction edges generalizing pending with
  | nil => exact populated
  | cons edge rest ih =>
      obtain ⟨added, block⟩ := edge
      apply ih
      intro target listed
      obtain ⟨coords, found⟩ := SortedMap.mem_keys_iff.1 listed
      rw [SortedMap.get?_insert] at found
      by_cases same : block = target
      · exact ⟨added, has_insert.2 (.inr (by rw [same]))⟩
      · obtain ⟨coord, has⟩ := populated target
          (SortedMap.mem_keys_iff.2 ⟨coords, by simpa [same] using found⟩)
        exact ⟨coord, has_insert.2 (.inl has)⟩

/-- No block is listed for nothing after some have been reached. -/
theorem populated_foldl_erase {heads : List BlockId} {pending : Pending}
    (populated : Populated pending) : Populated (heads.foldl SortedMap.erase pending) := by
  induction heads generalizing pending with
  | nil => exact populated
  | cons first rest ih =>
      apply ih
      intro target listed
      obtain ⟨coords, found⟩ := SortedMap.mem_keys_iff.1 listed
      rw [SortedMap.get?_erase] at found
      by_cases same : first = target
      · simp [same] at found
      · obtain ⟨coord, known, has, member⟩ := populated target
          (SortedMap.mem_keys_iff.2 ⟨coords, by simpa [same] using found⟩)
        exact ⟨coord, known, by simpa [SortedMap.get?_erase, same] using has, member⟩

/-- What does not lead to the next part leads past it. -/
theorem exists_of_not_leadsTo {pending : Pending} {heads : SortedSet BlockId}
    (populated : Populated pending) (leads : leadsTo pending heads = false) :
    ∃ coord target, Has pending coord target ∧ target ∉ heads := by
  obtain ⟨target, listed, other⟩ := List.all_eq_false.1 leads
  obtain ⟨coord, has⟩ := populated target listed
  exact ⟨coord, target, has, by simpa using other⟩

/-- What leads to the next part only has its target there. -/
theorem mem_of_leadsTo {pending : Pending} {heads : SortedSet BlockId}
    (leads : leadsTo pending heads = true) {coord : Coord} {target : BlockId}
    (has : Has pending coord target) : target ∈ heads := by
  obtain ⟨coords, found, -⟩ := has
  have key : target ∈ pending.keys := SortedMap.mem_keys_iff.2 ⟨coords, found⟩
  simpa using List.all_eq_true.1 leads target key

end Pending

/-- A plain edge of a region leads out of some blocks. -/
structure OnItsWay (graph : BlockGraph) (forest : LoopForest) (around : Option Loop)
    (before : List BlockId) (coord : Coord) (target : BlockId) : Prop where
  plain : Plain graph forest coord target
  inside : target ∈ blocksOf graph around
  source : coord.block ∈ before
  ahead : target ∉ before

/-! ## Gates -/

/-- The gate of a node that is run after some blocks: control that has left them passes exactly if
it leads to the node, and what it left along is recorded if there is a gate. There is one only where
some control goes past the node. -/
structure GatedAfter (graph : BlockGraph) (forest : LoopForest) (recorded : CoordSet)
    (around : Option Loop) (before : List BlockId) (tree : Tree) : Prop where
  ungated : tree.notes.gateOn = none → ∀ coord target,
    OnItsWay graph forest around before coord target → target ∈ tree.heads
  gated : ∀ coords, tree.notes.gateOn = some coords → ∀ coord target,
    OnItsWay graph forest around before coord target →
      coord ∈ recorded ∧ (coord ∈ coords ↔ target ∈ tree.heads)
  inhabited : ∀ coords, tree.notes.gateOn = some coords → ∃ coord, coord ∈ coords
  arriving : ∀ coords, tree.notes.gateOn = some coords → ∀ coord ∈ coords,
    ∃ target ∈ tree.heads, OnItsWay graph forest around before coord target
  skipped : ∀ coords, tree.notes.gateOn = some coords →
    ∃ coord target, OnItsWay graph forest around before coord target ∧ target ∉ tree.heads

/-- Each node of a list has its gate after some blocks and those of the nodes before it. -/
def AllGated (graph : BlockGraph) (forest : LoopForest) (recorded : CoordSet)
    (around : Option Loop) : List BlockId → List Tree → Prop
  | _, [] => True
  | before, tree :: rest =>
      GatedAfter graph forest recorded around before tree ∧
        AllGated graph forest recorded around (before ++ tree.blocks) rest

/-- The node with another gate. -/
def Tree.gateOn (tree : Tree) (gate : Option CoordSet) : Tree :=
  tree.annotate fun notes => { notes with gateOn := gate }

@[simp] theorem Tree.notes_gateOn {tree : Tree} {gate : Option CoordSet} :
    (tree.gateOn gate).notes = { tree.notes with gateOn := gate } := by
  cases tree <;> rfl

@[simp] theorem Tree.heads_gateOn {tree : Tree} {gate : Option CoordSet} :
    (tree.gateOn gate).heads = tree.heads := by
  cases tree with
  | sequence label elems => cases elems <;> rfl
  | jump | conditional | loop | merge => rfl

@[simp] theorem Tree.blocks_gateOn {tree : Tree} {gate : Option CoordSet} :
    (tree.gateOn gate).blocks = tree.blocks := by
  cases tree <;> simp [gateOn, annotate, relabel]

theorem Tree.gateOn_none {tree : Tree} (ungated : tree.notes.gateOn = none) :
    tree.gateOn none = tree := by
  have same (label : Label) (free : label.notes.gateOn = none) :
      { label with notes := { label.notes with gateOn := none } } = label := by
    obtain ⟨head, jumps, ⟨gate, choose, recurse, back, value⟩⟩ := label
    cases free
    rfl
  cases tree with
  | jump label coord => exact congrArg (jump · coord) (same label ungated)
  | conditional label left right => exact congrArg (conditional · left right) (same label ungated)
  | sequence label elems => exact congrArg (sequence · elems) (same label ungated)
  | loop label entries body => exact congrArg (loop · entries body) (same label ungated)
  | merge label alternatives incoming =>
      exact congrArg (merge · alternatives incoming) (same label ungated)

section Gates

variable {graph : BlockGraph} {forest : LoopForest} {around : Option Loop}

/-- What is on its way after one more element. -/
theorem onItsWay_append_iff (checked : graph.Checked) {before : List BlockId} {tree : Tree}
    (part : IsPartOf graph forest around tree) (apart : ∀ id ∈ before, id ∉ tree.blocks)
    (ordered : ∀ coord target, Plain graph forest coord target →
      coord.block ∈ tree.blocks → target ∉ before) {coord : Coord} {target : BlockId} :
    OnItsWay graph forest around (before ++ tree.blocks) coord target ↔
      (OnItsWay graph forest around before coord target ∧ target ∉ tree.heads) ∨
        (coord, target) ∈ tree.jumps.flow := by
  rw [part.ways.flow]
  constructor
  · rintro ⟨plain, inside, source, ahead⟩
    simp only [List.mem_append, not_or] at source ahead
    rcases source with source | source
    · exact .inl ⟨⟨plain, inside, source, ahead.1⟩, fun isHead =>
        ahead.2 (part.heads_mem target isHead)⟩
    · exact .inr ⟨⟨source, fun other plain' => plain.unique checked plain' ▸ ahead.2⟩,
        plain, inside⟩
  · rintro (⟨⟨plain, inside, source, ahead⟩, notHead⟩ | ⟨⟨source, leaves⟩, plain, inside⟩)
    · refine ⟨plain, inside, List.mem_append_left _ source, ?_⟩
      simp only [List.mem_append, not_or]
      exact ⟨ahead, fun here => notHead (part.entered plain.1 (apart _ source) here)⟩
    · refine ⟨plain, inside, List.mem_append_right _ source, ?_⟩
      simp only [List.mem_append, not_or]
      exact ⟨ordered coord target plain source, leaves target plain⟩

/-- The gate of a node follows from what is on its way. -/
theorem gatedAfter_of_exact (checked : graph.Checked) {before : List BlockId} {tree : Tree}
    {pending : Pending} (exact : ∀ coord target, Pending.Has pending coord target ↔
      OnItsWay graph forest around before coord target) (populated : pending.Populated)
    (ungated : tree.notes.gateOn = none) (reached : ∃ coord, coord ∈ pending.reaching tree.heads)
    {all : CoordSet}
    (subset : pending.leadsTo tree.heads = false → ∀ coord ∈ pending.coords, coord ∈ all) :
    GatedAfter graph forest all around before
      (if pending.leadsTo tree.heads then tree
        else tree.gateOn (some (pending.reaching tree.heads))) := by
  cases leads : pending.leadsTo tree.heads with
  | true =>
      have never (coords : CoordSet) : tree.notes.gateOn ≠ some coords := by simp [ungated]
      exact
        { ungated := fun _ coord target way =>
            Pending.mem_of_leadsTo leads ((exact coord target).2 way)
          gated := fun coords gate => absurd gate (never coords)
          inhabited := fun coords gate => absurd gate (never coords)
          arriving := fun coords gate => absurd gate (never coords)
          skipped := fun coords gate => absurd gate (never coords) }
  | false =>
      have gate {coords : CoordSet}
          (noted : (tree.gateOn (some (pending.reaching tree.heads))).notes.gateOn = some coords) :
          pending.reaching tree.heads = coords := by
        simpa using noted
      rw [if_neg (by simp)]
      constructor
      · simp
      · intro coords noted coord target way
        have has := (exact coord target).2 way
        refine ⟨subset leads coord (Pending.mem_coords_iff.2 ⟨target, has⟩), ?_⟩
        rw [← gate noted, Pending.mem_reaching_iff, Tree.heads_gateOn]
        constructor
        · rintro ⟨other, isHead, hasOther⟩
          have wayOther := (exact coord other).1 hasOther
          exact way.plain.unique checked wayOther.plain ▸ isHead
        · exact fun isHead => ⟨target, isHead, has⟩
      · intro coords noted
        exact gate noted ▸ reached
      · intro coords noted coord member
        rw [← gate noted, Pending.mem_reaching_iff] at member
        obtain ⟨target, isHead, has⟩ := member
        exact ⟨target, by rwa [Tree.heads_gateOn], (exact coord target).1 has⟩
      · intro coords noted
        obtain ⟨coord, target, has, other⟩ := Pending.exists_of_not_leadsTo populated leads
        exact ⟨coord, target, (exact coord target).1 has, by rwa [Tree.heads_gateOn]⟩

/-- The gates of the elements that follow others in a chain. -/
theorem exists_gateElements (checked : graph.Checked) {front elems : List Tree}
    (chain : Chain graph forest (front ++ elems)) (started : front ≠ [])
    (parts : ∀ tree ∈ elems, IsPartOf graph forest around tree)
    (headed : ∀ tree ∈ elems, tree.isHeadless = false)
    (ungated : ∀ tree ∈ elems, tree.notes.gateOn = none) {pending : Pending}
    (exact : ∀ coord target, Pending.Has pending coord target ↔
      OnItsWay graph forest around (front.flatMap Tree.blocks) coord target)
    (populated : pending.Populated) :
    ∃ gated recorded, gateElements pending elems = .ok (gated, recorded) ∧
      List.Forall₂ (fun gated tree => ∃ gate, gated = tree.gateOn gate) gated elems ∧
      ∀ all : CoordSet, (∀ coord ∈ recorded, coord ∈ all) →
        AllGated graph forest all around (front.flatMap Tree.blocks) gated := by
  induction elems generalizing front pending with
  | nil => exact ⟨[], .empty, rfl, .nil, fun _ _ => trivial⟩
  | cons tree rest ih =>
      have part := parts tree (by simp)
      obtain ⟨-, apartRest, apart⟩ := List.pairwise_append.1 chain.apart
      obtain ⟨-, orderedRest, ordered⟩ := List.pairwise_append.1 chain.ordered
      have apartHere (id : BlockId) (member : id ∈ front.flatMap Tree.blocks) :
          id ∉ tree.blocks := by
        obtain ⟨earlier, among, holds⟩ := List.mem_flatMap.1 member
        exact apart earlier among tree (by simp) id holds
      have orderedHere (coord : Coord) (target : BlockId) (plain : Plain graph forest coord target)
          (source : coord.block ∈ tree.blocks) : target ∉ front.flatMap Tree.blocks := by
        intro member
        obtain ⟨earlier, among, holds⟩ := List.mem_flatMap.1 member
        exact ordered earlier among tree (by simp) coord target plain source holds
      have entered {coord : Coord} {target : BlockId}
          (way : OnItsWay graph forest around (front.flatMap Tree.blocks) coord target)
          (here : target ∈ tree.blocks) : target ∈ tree.heads :=
        part.entered way.plain.1 (apartHere _ way.source) here
      -- An earlier element leads to this one, so something on its way reaches it.
      obtain ⟨known, isReaching⟩ : ∃ coord, coord ∈ Pending.reaching pending tree.heads := by
        obtain ⟨coord, target, plain, ⟨earlier, among, source⟩, here⟩ :=
          chain.reached front tree rest rfl started
        have way : OnItsWay graph forest around (front.flatMap Tree.blocks) coord target :=
          ⟨plain, part.inside target here, List.mem_flatMap.2 ⟨earlier, among, source⟩,
            fun before => apartHere target before here⟩
        exact ⟨coord, Pending.mem_reaching_iff.2
          ⟨target, entered way here, (exact coord target).2 way⟩⟩
      have nonempty : (Pending.reaching pending tree.heads).isEmpty = false := by
        rw [← Bool.not_eq_true, SortedSet.isEmpty_iff]
        exact fun empty => empty known isReaching
      have exactNext (coord : Coord) (target : BlockId) :
          Pending.Has (Pending.addFlow (tree.heads.toList.foldl SortedMap.erase pending)
            tree.jumps) coord target ↔
          OnItsWay graph forest around ((front ++ [tree]).flatMap Tree.blocks) coord target := by
        rw [Pending.has_addFlow, Pending.has_foldl_erase, exact, SortedSet.mem_toList,
          List.flatMap_append, List.flatMap_singleton,
          onItsWay_append_iff checked part apartHere orderedHere]
      obtain ⟨gated, recorded, made, related, allGated⟩ := ih
        (show Chain graph forest ((front ++ [tree]) ++ rest) by simpa using chain) (by simp)
        (fun other member => parts other (List.mem_cons_of_mem _ member))
        (fun other member => headed other (List.mem_cons_of_mem _ member))
        (fun other member => ungated other (List.mem_cons_of_mem _ member)) exactNext
        (Pending.populated_addFlow (Pending.populated_foldl_erase populated))
      unfold gateElements
      simp only [headed tree (by simp), nonempty, made, Bool.false_eq_true, if_false, ok_bind,
        pure_eq_ok]
      refine ⟨_, _, rfl, .cons ?_ related, fun all subset => ⟨?_, ?_⟩⟩
      · split
        · exact ⟨none, (Tree.gateOn_none (ungated tree (by simp))).symm⟩
        · exact ⟨_, rfl⟩
      · refine gatedAfter_of_exact checked exact populated (ungated tree (by simp))
          ⟨known, isReaching⟩ fun leads coord member => subset coord ?_
        simp [leads, member]
      · have later := allGated all fun coord member => subset coord (by simp [member])
        rw [List.flatMap_append, List.flatMap_singleton] at later
        split
        · exact later
        · rw [← Tree.gateOn, Tree.blocks_gateOn]
          exact later

/-- The gates of a chain. Its first element has none. -/
theorem exists_gateAllButFirst (checked : graph.Checked) {first : Tree} {rest : List Tree}
    (chain : Chain graph forest (first :: rest))
    (parts : ∀ tree ∈ first :: rest, IsPartOf graph forest around tree)
    (headed : ∀ tree ∈ first :: rest, tree.isHeadless = false)
    (ungated : ∀ tree ∈ first :: rest, tree.notes.gateOn = none) :
    ∃ gated recorded, gateAllButFirst (first :: rest) = .ok (first :: gated, recorded) ∧
      List.Forall₂ (fun gated tree => ∃ gate, gated = tree.gateOn gate) gated rest ∧
      ∀ all : CoordSet, (∀ coord ∈ recorded, coord ∈ all) →
        AllGated graph forest all around first.blocks gated := by
  have exact (coord : Coord) (target : BlockId) :
      Pending.Has (Pending.addFlow .empty first.jumps) coord target ↔
        OnItsWay graph forest around ([first].flatMap Tree.blocks) coord target := by
    rw [Pending.has_addFlow, List.flatMap_singleton, ← List.nil_append first.blocks,
      onItsWay_append_iff checked (parts first (by simp)) (by simp) (by simp)]
    exact or_congr_left ⟨fun has => absurd has Pending.not_has_empty,
      fun way => absurd way.1.source List.not_mem_nil⟩
  obtain ⟨gated, recorded, made, related, allGated⟩ := exists_gateElements checked
    (show Chain graph forest ([first] ++ rest) from chain) (by simp)
    (fun tree member => parts tree (List.mem_cons_of_mem _ member))
    (fun tree member => headed tree (List.mem_cons_of_mem _ member))
    (fun tree member => ungated tree (List.mem_cons_of_mem _ member)) exact
    (Pending.populated_addFlow Pending.populated_empty)
  rw [List.flatMap_singleton] at allGated
  exact ⟨gated, recorded, by simp [gateAllButFirst, made], related, allGated⟩

end Gates

end GotoFree
