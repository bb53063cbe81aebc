import Mathlib.Data.List.Perm.Subperm
import Mathlib.Tactic.Tauto
import GotoFree.Flow.Loops
import GotoFree.Proofs.Graph

/-!
# The loops of a region

The search for loops never fails on a checked graph (`exists_findLoops`). It splits every region
(`Split`): the bodies of the loops directly nested in a region are apart from each other and from
the entries of the region, they take every cycle that does not pass such an entry, and but for
returning blocks at its end a body is strongly connected. Loops are numbered in order, each before
the ones nested in it.
-/

namespace GotoFree

open Relation

/-- An edge between blocks of a region that does not lead to a block of `cut`. -/
def BlockGraph.Inner (graph : BlockGraph) (region cut : SortedSet BlockId)
    (source target : BlockId) : Prop :=
  source ∈ region ∧ target ∈ region ∧ target ∉ cut ∧ target ∈ graph.next source

/-! ## Cyclic parts -/

section CyclicParts

variable {graph : BlockGraph} {region cut : SortedSet BlockId}

/-- An edge is listed inside a region if it stays in it and avoids the cut. -/
theorem mem_innerEdges {source target : BlockId} :
    (source, target) ∈ innerEdges graph region cut ↔ graph.Inner region cut source target := by
  simp only [innerEdges, List.mem_flatMap, SortedSet.mem_toList, List.mem_map, List.mem_filter,
    Bool.and_eq_true, decide_eq_true_eq, Prod.mk.injEq, BlockGraph.Inner]
  constructor
  · rintro ⟨_, inside, _, ⟨edge, among, free⟩, rfl, rfl⟩
    exact ⟨inside, among, free, edge⟩
  · rintro ⟨inside, among, free, edge⟩
    exact ⟨source, inside, target, ⟨edge, among, free⟩, rfl, rfl⟩

/-- The table of targets leads where the inner edges do. -/
theorem leads_targetsFrom :
    Leads (targetsFrom (innerEdges graph region cut)) = graph.Inner region cut := by
  funext source target
  simp only [Leads, targetsFrom, List.mem_filterMap, Option.ite_none_right_eq_some,
    Option.some.injEq, Prod.exists, eq_iff_iff]
  constructor
  · rintro ⟨_, _, member, rfl, rfl⟩
    exact mem_innerEdges.1 member
  · exact fun inner => ⟨source, target, mem_innerEdges.2 inner, rfl, rfl⟩

/-- The table of sources leads back along the inner edges. -/
theorem leads_sourcesTo :
    Leads (sourcesTo (innerEdges graph region cut)) = Function.swap (graph.Inner region cut) := by
  funext target source
  simp only [Leads, sourcesTo, List.mem_filterMap, Option.ite_none_right_eq_some,
    Option.some.injEq, Prod.exists, eq_iff_iff]
  constructor
  · rintro ⟨_, _, member, rfl, rfl⟩
    exact mem_innerEdges.1 member
  · exact fun inner => ⟨source, target, mem_innerEdges.2 inner, rfl, rfl⟩

/-- Inner edges stay in the region. -/
theorem closed_targetsFrom :
    Closed (targetsFrom (innerEdges graph region cut)) region.toList := by
  intro source _ target edge
  have inner : graph.Inner region cut source target := leads_targetsFrom ▸ edge
  exact inner.2.1

theorem closed_sourcesTo : Closed (sourcesTo (innerEdges graph region cut)) region.toList := by
  intro target _ source edge
  have inner : Function.swap (graph.Inner region cut) target source := leads_sourcesTo ▸ edge
  exact inner.1

/-- The blocks after a block are those that paths with an edge lead to. -/
theorem mem_reachable_next {next : BlockId → List BlockId} {relation : BlockId → BlockId → Prop}
    (leads : Leads next = relation) (closed : Closed next region.toList) {id other : BlockId}
    (inside : id ∈ region) :
    other ∈ reachable next region.toList.length (next id) ↔ TransGen relation id other := by
  rw [mem_reachable closed (Nat.le_refl _) (closed id inside), TransGen.head'_iff, ← leads]
  exact Iff.rfl

/-- Two blocks that lie on one cycle. -/
structure BlockGraph.Mutual (graph : BlockGraph) (region cut : SortedSet BlockId)
    (first second : BlockId) : Prop where
  there : TransGen (graph.Inner region cut) first second
  back : TransGen (graph.Inner region cut) second first

theorem BlockGraph.Mutual.symm {first second : BlockId}
    (both : graph.Mutual region cut first second) : graph.Mutual region cut second first :=
  ⟨both.back, both.there⟩

/-- Blocks that are mutually reached from one are so from each other. -/
theorem BlockGraph.Mutual.trans {first second third : BlockId}
    (left : graph.Mutual region cut first second) (right : graph.Mutual region cut second third) :
    graph.Mutual region cut first third :=
  ⟨left.there.trans right.there, right.back.trans left.back⟩

/-- Blocks that are mutually reached are in the region, and not cut. -/
theorem BlockGraph.Mutual.mem {first second : BlockId}
    (both : graph.Mutual region cut first second) : second ∈ region ∧ second ∉ cut := by
  obtain ⟨_, _, inner⟩ := TransGen.tail'_iff.1 both.there
  exact ⟨inner.2.1, inner.2.2.1⟩

/-- The cyclic part of a block holds the blocks on its cycles. -/
theorem cyclicPart?_eq_some {id : BlockId} {part : List BlockId} (inside : id ∈ region)
    (found : cyclicPart? (targetsFrom (innerEdges graph region cut))
      (sourcesTo (innerEdges graph region cut)) region.toList id = some part) :
    graph.Mutual region cut id id ∧ ∀ other, other ∈ part ↔ graph.Mutual region cut id other := by
  simp only [cyclicPart?] at found
  split at found
  · next cyclic =>
    rw [mem_reachable_next leads_targetsFrom closed_targetsFrom inside] at cyclic
    cases found
    refine ⟨⟨cyclic, cyclic⟩, fun other => ?_⟩
    rw [List.mem_filter, Bool.and_eq_true, decide_eq_true_eq, decide_eq_true_eq,
      mem_reachable_next leads_targetsFrom closed_targetsFrom inside,
      mem_reachable_next leads_sourcesTo closed_sourcesTo inside]
    exact ⟨fun known => ⟨known.2.1, transGen_swap.1 known.2.2⟩,
      fun both => ⟨both.mem.1, both.there, transGen_swap.2 both.back⟩⟩
  · cases found

/-- A block without a cyclic part lies on no cycle. -/
theorem cyclicPart?_eq_none {id : BlockId} (inside : id ∈ region)
    (missing : cyclicPart? (targetsFrom (innerEdges graph region cut))
      (sourcesTo (innerEdges graph region cut)) region.toList id = none) :
    ¬ graph.Mutual region cut id id := by
  simp only [cyclicPart?] at missing
  split at missing
  · cases missing
  · next straight =>
    rw [mem_reachable_next leads_targetsFrom closed_targetsFrom inside] at straight
    exact fun both => straight both.there

/-- The parts of a region are the classes of the blocks that lie on cycles. -/
structure IsPart (graph : BlockGraph) (region cut : SortedSet BlockId) (part : List BlockId) :
    Prop where
  nonempty : ∃ id, id ∈ part
  mem_iff : ∀ {id other}, id ∈ part → (other ∈ part ↔ graph.Mutual region cut id other)

/-- Each block of a cyclic part lies on a cycle. -/
theorem IsPart.cyclic {part : List BlockId} (isPart : IsPart graph region cut part) {id : BlockId}
    (member : id ∈ part) : graph.Mutual region cut id id :=
  (isPart.mem_iff member).1 member

/-- The blocks that reach a cyclic block, and are reached from it, are a part. -/
theorem isPart_of_mutual {id : BlockId} {part : List BlockId}
    (cyclic : graph.Mutual region cut id id)
    (mem_iff : ∀ other, other ∈ part ↔ graph.Mutual region cut id other) :
    IsPart graph region cut part where
  nonempty := ⟨id, (mem_iff id).2 cyclic⟩
  mem_iff {first second} member := by
    have here := (mem_iff first).1 member
    rw [mem_iff]
    exact ⟨here.symm.trans, here.trans⟩

/-- Every cyclic block of those visited is in one of the parts found. -/
theorem foldl_cyclicParts {ids : List BlockId} (inside : ∀ id ∈ ids, id ∈ region)
    {parts result : List (List BlockId)}
    (made : ids.foldl (fun parts id =>
      if parts.any (id ∈ ·) then parts
      else parts ++ (cyclicPart? (targetsFrom (innerEdges graph region cut))
        (sourcesTo (innerEdges graph region cut)) region.toList id).toList) parts = result)
    (areParts : ∀ part ∈ parts, IsPart graph region cut part)
    (apart : parts.Pairwise fun first second => ∀ id ∈ first, id ∉ second) :
    (∀ part ∈ result, IsPart graph region cut part) ∧
      (result.Pairwise fun first second => ∀ id ∈ first, id ∉ second) ∧
      (∀ part ∈ parts, part ∈ result) ∧
      ∀ id ∈ ids, graph.Mutual region cut id id → ∃ part ∈ result, id ∈ part := by
  induction ids generalizing parts with
  | nil =>
      cases made
      exact ⟨areParts, apart, fun _ member => member, by simp⟩
  | cons first rest ih =>
      rw [List.foldl_cons] at made
      have insideRest := fun id member => inside id (List.mem_cons_of_mem _ member)
      split at made
      · next known =>
        obtain ⟨all, distinct, kept, covered⟩ := ih insideRest made areParts apart
        refine ⟨all, distinct, kept, fun id member cyclic => ?_⟩
        rcases List.mem_cons.1 member with rfl | member
        · obtain ⟨part, among, here⟩ := List.any_eq_true.1 known
          exact ⟨part, kept part among, of_decide_eq_true here⟩
        · exact covered id member cyclic
      · next fresh =>
        cases found : cyclicPart? (targetsFrom (innerEdges graph region cut))
            (sourcesTo (innerEdges graph region cut)) region.toList first with
        | none =>
            rw [found, Option.toList_none, List.append_nil] at made
            obtain ⟨all, distinct, kept, covered⟩ := ih insideRest made areParts apart
            refine ⟨all, distinct, kept, fun id member cyclic => ?_⟩
            rcases List.mem_cons.1 member with rfl | member
            · exact absurd cyclic (cyclicPart?_eq_none (inside id (by simp)) found)
            · exact covered id member cyclic
        | some part =>
            obtain ⟨cyclic, mem_iff⟩ := cyclicPart?_eq_some (inside first (by simp)) found
            have isPart := isPart_of_mutual cyclic mem_iff
            rw [found, Option.toList_some] at made
            have apart' : (parts ++ [part]).Pairwise fun first second =>
                ∀ id ∈ first, id ∉ second := by
              refine List.pairwise_append.2 ⟨apart, by simp, fun other among last same => ?_⟩
              rw [List.mem_singleton.1 same]
              intro id here there
              have back := (mem_iff id).1 there
              refine fresh (List.any_eq_true.2 ⟨other, among, decide_eq_true ?_⟩)
              exact ((areParts other among).mem_iff here).2 back.symm
            obtain ⟨all, distinct, kept, covered⟩ := ih insideRest made (by
              intro other among
              rcases List.mem_append.1 among with among | same
              · exact areParts other among
              · exact List.mem_singleton.1 same ▸ isPart) apart'
            refine ⟨all, distinct, fun other among => kept other (by simp [among]),
              fun id member here => ?_⟩
            rcases List.mem_cons.1 member with rfl | member
            · exact ⟨part, kept part (by simp), (mem_iff id).2 here⟩
            · exact covered id member here

/-- The cyclic parts of a region: apart from each other, and with every block on a cycle. -/
theorem cyclicParts_spec {parts : List (List BlockId)}
    (made : cyclicParts (targetsFrom (innerEdges graph region cut))
      (sourcesTo (innerEdges graph region cut)) region.toList = parts) :
    (∀ part ∈ parts, IsPart graph region cut part) ∧
      (parts.Pairwise fun first second => ∀ id ∈ first, id ∉ second) ∧
      ∀ id ∈ region, graph.Mutual region cut id id → ∃ part ∈ parts, id ∈ part := by
  obtain ⟨all, distinct, -, covered⟩ :=
    foldl_cyclicParts (fun _ member => member) made (by simp) List.Pairwise.nil
  exact ⟨all, distinct, covered⟩

end CyclicParts

/-! ## Bodies and entries -/

/-- Each of some blocks is entered from outside of a region. -/
def EnteredFromOutside (graph : BlockGraph) (region cut : SortedSet BlockId) : Prop :=
  ∀ id ∈ cut, id = graph.entry ∨ ∃ coord, graph.HasEdge coord id ∧ coord.block ∉ region

namespace BlockGraph.Checked

variable {graph : BlockGraph} (checked : graph.Checked)

include checked

/-- An entry of a body is entered from outside, or is that of the graph. -/
theorem mem_entriesOf {body : SortedSet BlockId} {id : BlockId} :
    id ∈ entriesOf graph body ↔ id ∈ body ∧
      (id = graph.entry ∨ ∃ coord, graph.HasEdge coord id ∧ coord.block ∉ body) := by
  simp [entriesOf, checked.mem_inCoords_iff]

theorem enteredFromOutside_entriesOf {body : SortedSet BlockId} :
    EnteredFromOutside graph body (entriesOf graph body) := fun _ member =>
  (checked.mem_entriesOf.1 member).2

/-- An edge into a body from outside leads to an entry. -/
theorem mem_entriesOf_of_edge {body : SortedSet BlockId} {coord : Coord} {target : BlockId}
    (edge : graph.HasEdge coord target) (outside : coord.block ∉ body) (inside : target ∈ body) :
    target ∈ entriesOf graph body :=
  checked.mem_entriesOf.2 ⟨inside, .inr ⟨coord, edge, outside⟩⟩

/-- A body is entered on every path that leads to it. -/
theorem exists_mem_entriesOf {body : SortedSet BlockId} {id : BlockId} (known : id ∈ graph.ids)
    (inside : id ∈ body) : ∃ entry, entry ∈ entriesOf graph body := by
  have path := checked.reached known
  induction path with
  | refl => exact ⟨_, checked.mem_entriesOf.2 ⟨inside, .inl rfl⟩⟩
  | @tail source target path step ih =>
      obtain ⟨coord, rfl, edge⟩ := checked.mem_next_iff.1 step
      by_cases before : coord.block ∈ body
      · exact ih (source_mem edge) before
      · exact ⟨_, checked.mem_entriesOf_of_edge edge before inside⟩

/-- A tail returns, and is entered from the body only. -/
theorem mem_returningTails {region body : SortedSet BlockId} {id : BlockId} :
    id ∈ returningTails graph region body ↔
      id ∈ region ∧ id ∉ body ∧ id ≠ graph.entry ∧ graph.isReturning id = true ∧
        (∃ coord, graph.HasEdge coord id) ∧
        ∀ coord, graph.HasEdge coord id → coord.block ∈ body := by
  have nonempty : ((graph.inCoords id).map Coord.block).isEmpty = false ↔
      ∃ coord, graph.HasEdge coord id := by
    rw [← Bool.not_eq_true, List.isEmpty_iff, List.map_eq_nil_iff,
      List.eq_nil_iff_forall_not_mem]
    simp [checked.mem_inCoords_iff]
  simp only [returningTails, List.mem_filter, SortedSet.mem_toList, Bool.and_eq_true,
    decide_eq_true_eq, Bool.not_eq_true', nonempty, List.all_eq_true, List.mem_map,
    checked.mem_inCoords_iff, forall_exists_index, and_imp, forall_apply_eq_imp_iff₂]
  tauto

end BlockGraph.Checked

/-! ## Splitting a region -/

/-- A loop directly nested in a region. -/
structure NestedIn (graph : BlockGraph) (region cut : SortedSet BlockId) (loop : Loop) :
    Prop where
  inside : ∀ id ∈ loop.body, id ∈ region
  free : ∀ id ∈ loop.body, id ∉ cut
  entries_eq : loop.entries = entriesOf graph loop.body
  head_eq : loop.entries.min? = some loop.head
  /-- Each entry lies on a cycle with every block of the body that another one follows. -/
  connected : ∀ entry ∈ loop.entries, ∀ id ∈ loop.body, ∀ target ∈ graph.next id,
    graph.Mutual region cut entry id

/-- The loops directly nested in a region take all its cycles but for those through `cut`. -/
structure Split (graph : BlockGraph) (region cut : SortedSet BlockId) (loops : List Loop) :
    Prop where
  nested : ∀ loop ∈ loops, NestedIn graph region cut loop
  apart : loops.Pairwise fun first second => ∀ id ∈ first.body, id ∉ second.body
  whole : ∀ first second, graph.Mutual region cut first second →
    ∃ loop ∈ loops, first ∈ loop.body ∧ second ∈ loop.body

section Bodies

variable {graph : BlockGraph} {region cut : SortedSet BlockId} {part : List BlockId}

/-- The blocks of a part are in the region, and not cut. -/
theorem IsPart.mem (isPart : IsPart graph region cut part) {id : BlockId} (member : id ∈ part) :
    id ∈ region ∧ id ∉ cut :=
  (isPart.cyclic member).mem

variable (checked : graph.Checked)

include checked

/-- A body has the blocks of a part, and the tails behind it. -/
theorem mem_bodyOf {id : BlockId} : id ∈ bodyOf graph region part ↔
    id ∈ part ∨ (id ∈ region ∧ id ∉ part ∧ id ≠ graph.entry ∧ graph.isReturning id = true ∧
      (∃ coord, graph.HasEdge coord id) ∧
      ∀ coord, graph.HasEdge coord id → coord.block ∈ part) := by
  simp [bodyOf, checked.mem_returningTails]

/-- A block of a body that another one follows lies in the cyclic part. -/
theorem mem_part_of_next {id target : BlockId} (member : id ∈ bodyOf graph region part)
    (edge : target ∈ graph.next id) : id ∈ part := by
  rcases (mem_bodyOf checked).1 member with core | tail
  · exact core
  · have none := checked.outEdges_of_isReturning tail.2.2.2.1
    simp [BlockGraph.next, none] at edge

/-- The entries of a body are in its part. -/
theorem mem_part_of_entry {id : BlockId}
    (member : id ∈ entriesOf graph (bodyOf graph region part)) : id ∈ part := by
  obtain ⟨inside, entered⟩ := checked.mem_entriesOf.1 member
  rcases (mem_bodyOf checked).1 inside with core | tail
  · exact core
  · rcases entered with same | ⟨coord, edge, outside⟩
    · exact absurd same tail.2.2.1
    · exact absurd ((mem_bodyOf checked).2 (.inl (tail.2.2.2.2.2 coord edge))) outside

variable (isPart : IsPart graph region cut part) (entered : EnteredFromOutside graph region cut)

include isPart

/-- A body stays in its region. -/
theorem inside_bodyOf {id : BlockId} (member : id ∈ bodyOf graph region part) : id ∈ region := by
  rcases (mem_bodyOf checked).1 member with core | tail
  · exact (isPart.mem core).1
  · exact tail.1

include entered in
/-- A body avoids the cut. -/
theorem free_bodyOf {id : BlockId} (member : id ∈ bodyOf graph region part) : id ∉ cut := by
  rcases (mem_bodyOf checked).1 member with core | tail
  · exact (isPart.mem core).2
  · intro among
    rcases entered id among with same | ⟨coord, edge, outside⟩
    · exact tail.2.2.1 same
    · exact outside (isPart.mem (tail.2.2.2.2.2 coord edge)).1

/-- Every body has an entry. -/
theorem exists_entry_bodyOf (known : ∀ id ∈ region, id ∈ graph.ids) :
    ∃ entry, entry ∈ entriesOf graph (bodyOf graph region part) := by
  obtain ⟨id, member⟩ := isPart.nonempty
  exact checked.exists_mem_entriesOf (known id (isPart.mem member).1)
    ((mem_bodyOf checked).2 (.inl member))

include entered in
/-- The body of a loop without its entries is smaller than the region around it. -/
theorem length_inner_lt {entry : BlockId}
    (isEntry : entry ∈ entriesOf graph (bodyOf graph region part)) :
    ((bodyOf graph region part).toList.filter fun id =>
      id ∉ entriesOf graph (bodyOf graph region part)).length <
      (region.toList.filter fun id => id ∉ cut).length := by
  have fresh : entry ∉ (bodyOf graph region part).toList.filter fun id =>
      id ∉ entriesOf graph (bodyOf graph region part) := fun among => by
    simpa [isEntry] using List.of_mem_filter among
  have distinct := List.nodup_cons.2 ⟨fresh, (bodyOf graph region part).nodup.filter _⟩
  refine (List.subperm_of_subset distinct fun id among => ?_).length_le
  have member : id ∈ bodyOf graph region part := by
    rcases List.mem_cons.1 among with rfl | among
    · exact (checked.mem_entriesOf.1 isEntry).1
    · exact List.mem_of_mem_filter among
  rw [List.mem_filter, decide_eq_true_eq]
  exact ⟨inside_bodyOf checked isPart member, free_bodyOf checked isPart entered member⟩

include entered in
/-- A loop with such a body is nested in the region. -/
theorem nestedIn_bodyOf {loop : Loop} (body : loop.body = bodyOf graph region part)
    (entries : loop.entries = entriesOf graph loop.body)
    (head : loop.entries.min? = some loop.head) : NestedIn graph region cut loop where
  inside id member := inside_bodyOf checked isPart (body ▸ member)
  free id member := free_bodyOf checked isPart entered (body ▸ member)
  entries_eq := entries
  head_eq := head
  connected entry first id second target edge := by
    rw [entries, body] at first
    rw [body] at second
    exact (isPart.mem_iff (mem_part_of_entry checked first)).1
      (mem_part_of_next checked second edge)

/-- The bodies around parts that are apart are apart. -/
theorem apart_bodyOf {other : List BlockId} (isOther : IsPart graph region cut other)
    (apart : ∀ id ∈ part, id ∉ other) {id : BlockId} (left : id ∈ bodyOf graph region part)
    (right : id ∈ bodyOf graph region other) : False := by
  rcases (mem_bodyOf checked).1 left with core | tail
  · rcases (mem_bodyOf checked).1 right with core' | tail'
    · exact apart id core core'
    · obtain ⟨next, edge, -⟩ := TransGen.head'_iff.1 (isPart.cyclic core).there
      have none := checked.outEdges_of_isReturning tail'.2.2.2.1
      simp [BlockGraph.Inner, BlockGraph.next, none] at edge
  · rcases (mem_bodyOf checked).1 right with core' | tail'
    · obtain ⟨next, edge, -⟩ := TransGen.head'_iff.1 (isOther.cyclic core').there
      have none := checked.outEdges_of_isReturning tail.2.2.2.1
      simp [BlockGraph.Inner, BlockGraph.next, none] at edge
    · obtain ⟨coord, edge⟩ := tail.2.2.2.2.1
      exact apart _ (tail.2.2.2.2.2 coord edge) (tail'.2.2.2.2.2 coord edge)

end Bodies

/-! ## The search -/

namespace Loop

/-- A loop is listed in front of its inner ones. -/
theorem flatten_eq (loop : Loop) : loop.flatten = loop :: flattenAll loop.inner := by
  cases loop
  rfl

@[simp] theorem flattenAll_nil : flattenAll [] = [] := rfl

@[simp] theorem flattenAll_cons {loop : Loop} {rest : List Loop} :
    flattenAll (loop :: rest) = loop.flatten ++ flattenAll rest := rfl

/-- The loops of a list are those in each of it. -/
theorem mem_flattenAll {loops : List Loop} {loop : Loop} :
    loop ∈ flattenAll loops ↔ ∃ outer ∈ loops, loop ∈ outer.flatten := by
  induction loops with
  | nil => simp
  | cons first rest ih => simp [ih]

theorem mem_flatten {outer loop : Loop} :
    loop ∈ outer.flatten ↔ loop = outer ∨ loop ∈ flattenAll outer.inner := by
  rw [flatten_eq, List.mem_cons]

theorem mem_flatten_self (loop : Loop) : loop ∈ loop.flatten := mem_flatten.2 (.inl rfl)

theorem mem_flattenAll_of_mem {loops : List Loop} {loop : Loop} (member : loop ∈ loops) :
    loop ∈ flattenAll loops :=
  mem_flattenAll.2 ⟨loop, member, loop.mem_flatten_self⟩

end Loop

/-- The loops that a search finds in a region, numbered from `number` on. -/
structure Found (graph : BlockGraph) (region cut : SortedSet BlockId) (number : Nat)
    (loops : List Loop) : Prop where
  split : Split graph region cut loops
  deep : ∀ loop ∈ Loop.flattenAll loops, Split graph loop.body loop.entries loop.inner
  numbered : (Loop.flattenAll loops).map Loop.id =
    List.range' number (Loop.flattenAll loops).length

/-- The loop that a search makes around a body. -/
structure MadeAround (graph : BlockGraph) (body : SortedSet BlockId) (number : Nat)
    (loop : Loop) : Prop where
  body_eq : loop.body = body
  entries_eq : loop.entries = entriesOf graph body
  head_eq : loop.entries.min? = some loop.head
  deep : ∀ inner ∈ loop.flatten, Split graph inner.body inner.entries inner.inner
  numbered : loop.flatten.map Loop.id = List.range' number loop.flatten.length

/-- A search makes one loop around each body if each step does. -/
theorem foldlM_madeAround {graph : BlockGraph}
    {step : List Loop × Nat → SortedSet BlockId → Except Defect (List Loop × Nat)}
    {bodies : List (SortedSet BlockId)}
    (made : ∀ body ∈ bodies, ∀ earlier number, ∃ loop,
      step (earlier, number) body = .ok (earlier ++ [loop], number + loop.flatten.length) ∧
        MadeAround graph body number loop) (earlier : List Loop) (number : Nat) :
    ∃ loops, bodies.foldlM step (earlier, number) =
        .ok (earlier ++ loops, number + (Loop.flattenAll loops).length) ∧
      List.Forall₂ (fun body loop => ∃ number, MadeAround graph body number loop) bodies loops ∧
      (Loop.flattenAll loops).map Loop.id =
        List.range' number (Loop.flattenAll loops).length := by
  induction bodies generalizing earlier number with
  | nil => exact ⟨[], by simp, .nil, by simp⟩
  | cons body rest ih =>
      obtain ⟨loop, here, isMade⟩ := made body (by simp) earlier number
      obtain ⟨loops, later, areMade, numbers⟩ := ih (fun body member =>
        made body (List.mem_cons_of_mem _ member)) (earlier ++ [loop])
          (number + loop.flatten.length)
      refine ⟨loop :: loops, ?_, .cons ⟨number, isMade⟩ areMade, ?_⟩
      · rw [List.foldlM_cons, here, ok_bind, later]
        simp [Nat.add_assoc]
      · rw [Loop.flattenAll_cons, List.map_append, isMade.numbered, numbers, List.length_append,
          List.range'_append_1]

/-- A step makes a loop around a body with an entry if the search in the body succeeds. -/
theorem exists_addLoop {graph : BlockGraph}
    {search : SortedSet BlockId → SortedSet BlockId → Nat → Except Defect (List Loop × Nat)}
    {body : SortedSet BlockId} (entered : ∃ entry, entry ∈ entriesOf graph body)
    (searched : ∀ number, ∃ loops, search body (entriesOf graph body) number =
        .ok (loops, number + (Loop.flattenAll loops).length) ∧
      Found graph body (entriesOf graph body) number loops) (earlier : List Loop) (number : Nat) :
    ∃ loop, addLoop graph search (earlier, number) body =
        .ok (earlier ++ [loop], number + loop.flatten.length) ∧
      MadeAround graph body number loop := by
  obtain ⟨head, least⟩ := Option.isSome_iff_exists.1 (SortedSet.min?_isSome_iff.2 entered)
  obtain ⟨inner, search, isFound⟩ := searched (number + 1)
  refine ⟨⟨number, head, entriesOf graph body, body, inner⟩, ?_, rfl, rfl, least, ?_, ?_⟩
  · simp only [addLoop, least, search, ok_bind, pure_eq_ok, Loop.flatten_eq, List.length_cons]
    rw [Nat.add_assoc, Nat.add_comm 1]
  · intro loop member
    rcases Loop.mem_flatten.1 member with rfl | member
    · exact isFound.split
    · exact isFound.deep loop member
  · rw [Loop.flatten_eq, List.map_cons, isFound.numbered, List.length_cons, List.range'_succ]

/-- The loops made around the cyclic parts of a region split it. -/
theorem split_of_madeAround {graph : BlockGraph} (checked : graph.Checked)
    {region cut : SortedSet BlockId} (entered : EnteredFromOutside graph region cut)
    {parts : List (List BlockId)} {loops : List Loop}
    (areParts : ∀ part ∈ parts, IsPart graph region cut part)
    (apart : parts.Pairwise fun first second => ∀ id ∈ first, id ∉ second)
    (covered : ∀ id ∈ region, graph.Mutual region cut id id → ∃ part ∈ parts, id ∈ part)
    (made : List.Forall₂ (fun part loop =>
      ∃ number, MadeAround graph (bodyOf graph region part) number loop) parts loops) :
    Split graph region cut loops where
  nested loop member := by
    obtain ⟨part, among, number, isMade⟩ := exists_of_mem_right made member
    exact nestedIn_bodyOf checked (areParts part among) entered isMade.body_eq
      (isMade.body_eq ▸ isMade.entries_eq) isMade.head_eq
  apart := by
    clear covered
    induction made with
    | nil => exact .nil
    | @cons part loop parts loops isMade others ih =>
        obtain ⟨first, later⟩ := List.pairwise_cons.1 apart
        refine .cons (fun other member id left right => ?_)
          (ih (fun part among => areParts part (List.mem_cons_of_mem _ among)) later)
        obtain ⟨part', among, number', isMade'⟩ := exists_of_mem_right others member
        obtain ⟨number, isMade⟩ := isMade
        exact apart_bodyOf checked (areParts part (by simp))
          (areParts part' (List.mem_cons_of_mem _ among)) (first part' among)
          (isMade.body_eq ▸ left) (isMade'.body_eq ▸ right)
  whole first second both := by
    have cyclic : graph.Mutual region cut first first := both.trans both.symm
    obtain ⟨part, among, here⟩ := covered first cyclic.mem.1 cyclic
    obtain ⟨loop, member, number, isMade⟩ := exists_of_mem_left made among
    refine ⟨loop, member, ?_, ?_⟩
    · exact isMade.body_eq ▸ (mem_bodyOf checked).2 (.inl here)
    · exact isMade.body_eq ▸
        (mem_bodyOf checked).2 (.inl (((areParts part among).mem_iff here).2 both))

/-- A search that may go deep enough finds loops that split the region. -/
theorem exists_findLoops {graph : BlockGraph} (checked : graph.Checked) {depth : Nat}
    {region cut : SortedSet BlockId} {number : Nat} (known : ∀ id ∈ region, id ∈ graph.ids)
    (entered : EnteredFromOutside graph region cut)
    (enough : (region.toList.filter fun id => id ∉ cut).length < depth) :
    ∃ loops, findLoops graph depth region cut number =
        .ok (loops, number + (Loop.flattenAll loops).length) ∧
      Found graph region cut number loops := by
  induction depth generalizing region cut number with
  | zero => omega
  | succ depth ih =>
      obtain ⟨areParts, apart, covered⟩ := @cyclicParts_spec graph region cut _ rfl
      -- Each step makes a loop around one part; its entries are left out one level deeper.
      have step : ∀ body ∈ (cyclicParts (targetsFrom (innerEdges graph region cut))
          (sourcesTo (innerEdges graph region cut)) region.toList).map (bodyOf graph region),
          ∀ earlier number, ∃ loop, addLoop graph (findLoops graph depth) (earlier, number) body =
            .ok (earlier ++ [loop], number + loop.flatten.length) ∧
              MadeAround graph body number loop := by
        intro body member
        obtain ⟨part, among, rfl⟩ := List.mem_map.1 member
        have isPart := areParts part among
        obtain ⟨entry, isEntry⟩ := exists_entry_bodyOf checked isPart known
        refine exists_addLoop ⟨entry, isEntry⟩ fun number => ih
          (fun id member => known id (inside_bodyOf checked isPart member))
          checked.enteredFromOutside_entriesOf ?_
        have smaller := length_inner_lt checked isPart entered isEntry
        omega
      obtain ⟨loops, found, made, numbers⟩ := foldlM_madeAround step [] number
      refine ⟨loops, ?_, ?_, ?_, numbers⟩
      · unfold findLoops
        rw [BlockGraph.requireBlocks_ok known, ok_bind]
        exact found
      · exact split_of_madeAround checked entered areParts apart covered
          (List.forall₂_map_left_iff.1 made)
      · intro loop member
        obtain ⟨outer, among, inner⟩ := Loop.mem_flattenAll.1 member
        obtain ⟨body, -, number, isMade⟩ := exists_of_mem_right made among
        exact isMade.deep loop inner

/-- The loops of a checked graph are found; they split it, and each one the loops in it. -/
theorem BlockGraph.Checked.exists_ofGraph {graph : BlockGraph} (checked : graph.Checked) :
    ∃ forest, LoopForest.ofGraph graph = .ok forest ∧
      Found graph graph.idSet .empty 0 forest.top := by
  have entered : EnteredFromOutside graph graph.idSet .empty :=
    fun id member => absurd member SortedSet.not_mem_empty
  have few : graph.idSet.toList.length ≤ graph.ids.length :=
    (List.subperm_of_subset graph.idSet.nodup fun id member =>
      BlockGraph.mem_idSet.1 member).length_le
  obtain ⟨loops, search, found⟩ := @exists_findLoops graph checked (graph.ids.length + 1)
    graph.idSet .empty 0 (fun id member => BlockGraph.mem_idSet.1 member) entered
    (Nat.lt_succ_of_le (Nat.le_trans (List.length_filter_le _ _) few))
  exact ⟨⟨loops⟩, by simp [LoopForest.ofGraph, search], found⟩

end GotoFree
