import GotoFree.Proofs.Loops

/-!
# Positions in the loop forest

Of two loops of a forest one lies in the other, off its entries, or their bodies are apart
(`Split.position`). So a block is an entry of one loop at most, the loops around a block form a
chain that ends with the innermost one (`innermost?_eq_some_iff`), an edge continues one loop at
most (`continued?_eq_some_iff`), and each loop is directly nested in one loop at most
(`parent?_eq_some_iff`).
-/

namespace GotoFree

namespace Loop

/-- What holds of each loop that it holds of the nested ones of, holds of every loop. -/
theorem induction {motive : Loop → Prop}
    (step : ∀ loop : Loop, (∀ inner ∈ loop.inner, motive inner) → motive loop) (loop : Loop) :
    motive loop :=
  @Loop.rec motive (fun loops => ∀ loop ∈ loops, motive loop)
    (fun _ _ _ _ _ inner => step _ inner) (by simp)
    (fun _ _ first rest => by simpa using ⟨first, rest⟩) loop

/-- The loops of one of some loops are listed in a row among those of all. -/
theorem sublist_flattenAll {loops : List Loop} {loop : Loop} (member : loop ∈ loops) :
    loop.flatten.Sublist (flattenAll loops) := by
  induction loops with
  | nil => cases member
  | cons first rest ih =>
      rw [flattenAll_cons]
      rcases List.mem_cons.1 member with rfl | member
      · exact List.sublist_append_left _ _
      · exact (ih member).trans (List.sublist_append_right _ _)

/-- The loops inside a loop of a loop are listed in a row among those of that loop. -/
theorem flatten_sublist {outer loop : Loop} (member : loop ∈ outer.flatten) :
    loop.flatten.Sublist outer.flatten := by
  induction outer using Loop.induction with
  | step outer ih =>
      rcases mem_flatten.1 member with rfl | member
      · exact List.Sublist.refl _
      · obtain ⟨inner, among, member⟩ := mem_flattenAll.1 member
        rw [flatten_eq outer]
        exact ((ih inner among member).trans (sublist_flattenAll among)).cons _

theorem flatten_sublist_flattenAll {loops : List Loop} {loop : Loop}
    (member : loop ∈ flattenAll loops) : loop.flatten.Sublist (flattenAll loops) := by
  obtain ⟨outer, among, member⟩ := mem_flattenAll.1 member
  exact (flatten_sublist member).trans (sublist_flattenAll among)

/-- A loop inside one of some loops is one of them, too. -/
theorem mem_flattenAll_of_inner {loops : List Loop} {outer loop : Loop}
    (among : outer ∈ flattenAll loops) (member : loop ∈ flattenAll outer.inner) :
    loop ∈ flattenAll loops :=
  (flatten_sublist_flattenAll among).subset (mem_flatten.2 (.inr member))

end Loop

/-- Each of some loops is split by the loops directly nested in it. -/
def Deep (graph : BlockGraph) (loops : List Loop) : Prop :=
  ∀ loop ∈ Loop.flattenAll loops, Split graph loop.body loop.entries loop.inner

section Nesting

variable {graph : BlockGraph}

/-- What is split deep down is so inside each of its loops. -/
theorem Deep.inner {loops : List Loop} (deep : Deep graph loops) {loop : Loop}
    (member : loop ∈ Loop.flattenAll loops) : Deep graph loop.inner := fun _ among =>
  deep _ (Loop.mem_flattenAll_of_inner member among)

/-- The body of a nested loop lies in the region around it, off the blocks of `cut`. -/
theorem Split.inside {region cut : SortedSet BlockId} {loops : List Loop}
    (split : Split graph region cut loops) (deep : Deep graph loops) {loop : Loop}
    (member : loop ∈ Loop.flattenAll loops) {id : BlockId} (holds : id ∈ loop.body) :
    id ∈ region ∧ id ∉ cut := by
  obtain ⟨outer, among, member⟩ := Loop.mem_flattenAll.1 member
  -- Each body on the way down lies in the one above it.
  have within : id ∈ outer.body := by
    have deepOuter := deep.inner (Loop.mem_flattenAll_of_mem among)
    have splitOuter := deep outer (Loop.mem_flattenAll_of_mem among)
    clear split deep among
    induction outer using Loop.induction with
    | step outer ih =>
        rcases Loop.mem_flatten.1 member with rfl | member
        · exact holds
        · obtain ⟨inner, among, member⟩ := Loop.mem_flattenAll.1 member
          have first := Loop.mem_flattenAll_of_mem among
          exact (splitOuter.nested inner among).inside id
            (ih inner among member (deepOuter.inner first) (deepOuter inner first))
  exact ⟨(split.nested outer among).inside id within, (split.nested outer among).free id within⟩

/-- Loops directly nested in one region that share a block are the same. -/
theorem Split.eq_of_mem {region cut : SortedSet BlockId} {loops : List Loop}
    (split : Split graph region cut loops) {first second : Loop} (left : first ∈ loops)
    (right : second ∈ loops) {id : BlockId} (inFirst : id ∈ first.body)
    (inSecond : id ∈ second.body) : first = second :=
  eq_of_pairwise_not (split.apart.imp fun apart => apart id) left right inFirst inSecond

/-- Loops in a region that share a block lie in one of the loops directly nested there. -/
theorem Split.exists_outer {region cut : SortedSet BlockId} {loops : List Loop}
    (split : Split graph region cut loops) (deep : Deep graph loops) {first second : Loop}
    (left : first ∈ Loop.flattenAll loops) (right : second ∈ Loop.flattenAll loops)
    {id : BlockId} (inFirst : id ∈ first.body) (inSecond : id ∈ second.body) :
    ∃ outer ∈ loops, first ∈ outer.flatten ∧ second ∈ outer.flatten := by
  have holds {loop outer : Loop} (among : outer ∈ loops) (member : loop ∈ outer.flatten)
      (here : id ∈ loop.body) : id ∈ outer.body := by
    rcases Loop.mem_flatten.1 member with rfl | member
    · exact here
    · have known := Loop.mem_flattenAll_of_mem among
      exact ((deep outer known).inside (deep.inner known) member here).1
  obtain ⟨outer, among, left⟩ := Loop.mem_flattenAll.1 left
  obtain ⟨other, among', right⟩ := Loop.mem_flattenAll.1 right
  have same := split.eq_of_mem among among' (holds among left inFirst) (holds among' right inSecond)
  exact ⟨outer, among, left, same ▸ right⟩

/-- Two loops that share a block are the same, or one lies in the other. -/
theorem Split.position {region cut : SortedSet BlockId} {loops : List Loop}
    (split : Split graph region cut loops) (deep : Deep graph loops) {first second : Loop}
    (left : first ∈ Loop.flattenAll loops) (right : second ∈ Loop.flattenAll loops)
    {id : BlockId} (inFirst : id ∈ first.body) (inSecond : id ∈ second.body) :
    first = second ∨ second ∈ Loop.flattenAll first.inner ∨
      first ∈ Loop.flattenAll second.inner := by
  obtain ⟨outer, among, left, right⟩ := split.exists_outer deep left right inFirst inSecond
  have known := Loop.mem_flattenAll_of_mem among
  have deepOuter := deep.inner known
  have splitOuter := deep outer known
  clear split deep among known
  induction outer using Loop.induction with
  | step outer ih =>
      rcases Loop.mem_flatten.1 left with rfl | left
      · rcases Loop.mem_flatten.1 right with rfl | right
        · exact .inl rfl
        · exact .inr (.inl right)
      · rcases Loop.mem_flatten.1 right with rfl | right
        · exact .inr (.inr left)
        · obtain ⟨inner, among, left, right⟩ :=
            splitOuter.exists_outer deepOuter left right inFirst inSecond
          have known := Loop.mem_flattenAll_of_mem among
          exact ih inner among left right (deepOuter.inner known) (deepOuter inner known)

/-- Every loop was split off a region, below the blocks that were cut there. -/
theorem exists_nestedIn {region cut : SortedSet BlockId} {loops : List Loop}
    (split : Split graph region cut loops) (deep : Deep graph loops) {loop : Loop}
    (member : loop ∈ Loop.flattenAll loops) : ∃ region cut, NestedIn graph region cut loop := by
  obtain ⟨outer, among, member⟩ := Loop.mem_flattenAll.1 member
  have known := Loop.mem_flattenAll_of_mem among
  have nested := split.nested outer among
  have deepOuter := deep.inner known
  have splitOuter := deep outer known
  clear split deep among known
  induction outer using Loop.induction generalizing region cut with
  | step outer ih =>
      rcases Loop.mem_flatten.1 member with rfl | member
      · exact ⟨region, cut, nested⟩
      · obtain ⟨inner, among, member⟩ := Loop.mem_flattenAll.1 member
        have known := Loop.mem_flattenAll_of_mem among
        exact ih inner among member (splitOuter.nested inner among) (deepOuter.inner known)
          (deepOuter inner known)

end Nesting

namespace LoopForest

/-- The loops of a forest are those of a graph. -/
def IsOf (forest : LoopForest) (graph : BlockGraph) : Prop :=
  Found graph graph.idSet .empty 0 forest.top

/-- The blocks of a loop, or of the whole graph. -/
def blocksOf (graph : BlockGraph) : Option Loop → SortedSet BlockId
  | some loop => loop.body
  | none => graph.idSet

/-- The blocks by which a loop is entered; those of the whole graph lie on cycles like others. -/
def cutOf : Option Loop → SortedSet BlockId
  | some loop => loop.entries
  | none => .empty

/-- A loop of a forest, or the region around all of them. -/
def Owns (forest : LoopForest) (around : Option Loop) : Prop := ∀ loop ∈ around, loop ∈ forest.all

theorem owns_none {forest : LoopForest} : forest.Owns none := by simp [Owns]

theorem owns_some {forest : LoopForest} {loop : Loop} (member : loop ∈ forest.all) :
    forest.Owns (some loop) := by simpa [Owns]

/-- The loops inside a loop of the forest are in the forest. -/
theorem Owns.mem_all {forest : LoopForest} {around : Option Loop} (owns : forest.Owns around)
    {loop : Loop} (member : loop ∈ Loop.flattenAll (forest.inside around)) :
    loop ∈ forest.all := by
  cases around with
  | none => exact member
  | some outer => exact Loop.mem_flattenAll_of_inner (owns outer rfl) member

namespace IsOf

variable {graph : BlockGraph} {forest : LoopForest} (isOf : forest.IsOf graph)

include isOf

/-- The loops inside a loop split its body, once its entries are cut. -/
theorem split_inside {around : Option Loop} (owns : forest.Owns around) :
    Split graph (blocksOf graph around) (cutOf around) (forest.inside around) := by
  cases around with
  | none => exact isOf.split
  | some loop => exact isOf.deep loop (owns loop rfl)

theorem exists_nested {loop : Loop} (member : loop ∈ forest.all) :
    ∃ region cut, NestedIn graph region cut loop :=
  exists_nestedIn isOf.split isOf.deep member

/-- The entries of a loop are those blocks of it that are entered from outside. -/
theorem entries_eq {loop : Loop} (member : loop ∈ forest.all) :
    loop.entries = entriesOf graph loop.body := by
  obtain ⟨region, cut, nested⟩ := isOf.exists_nested member
  exact nested.entries_eq

/-- A loop is named after one of its entries. -/
theorem head_mem {loop : Loop} (member : loop ∈ forest.all) : loop.head ∈ loop.entries := by
  obtain ⟨region, cut, nested⟩ := isOf.exists_nested member
  exact SortedSet.mem_of_min? nested.head_eq

theorem entry_mem_body {loop : Loop} (member : loop ∈ forest.all) {id : BlockId}
    (isEntry : id ∈ loop.entries) : id ∈ loop.body := by
  rw [isOf.entries_eq member, entriesOf, SortedSet.mem_filter] at isEntry
  exact isEntry.1

/-- The blocks of a loop are blocks of the graph. -/
theorem mem_ids {loop : Loop} (member : loop ∈ forest.all) {id : BlockId}
    (holds : id ∈ loop.body) : id ∈ graph.ids :=
  BlockGraph.mem_idSet.1 (isOf.split.inside isOf.deep member holds).1

/-- The loops are numbered in the order in which they are listed. -/
theorem ids_increasing : forest.all.Pairwise fun first second => first.id < second.id := by
  rw [← List.pairwise_map (f := Loop.id), show forest.all.map Loop.id = _ from isOf.numbered]
  exact List.pairwise_lt_range'

/-- A loop is told by its number. -/
theorem eq_of_id {first second : Loop} (left : first ∈ forest.all) (right : second ∈ forest.all)
    (same : first.id = second.id) : first = second := by
  have apart : forest.all.Pairwise fun one two => one.id = second.id → ¬ two.id = second.id :=
    isOf.ids_increasing.imp fun before here there => by omega
  exact eq_of_pairwise_not apart left right same rfl

/-- A loop is listed before the loops nested in it. -/
theorem id_lt {outer loop : Loop} (member : outer ∈ forest.all)
    (nested : loop ∈ Loop.flattenAll outer.inner) : outer.id < loop.id := by
  have increasing := isOf.ids_increasing.sublist (Loop.flatten_sublist_flattenAll member)
  rw [Loop.flatten_eq, List.pairwise_cons] at increasing
  exact increasing.1 loop nested

/-- The blocks of an inner loop are in the outer one, and are no entries of it. -/
theorem nested_body {outer loop : Loop} (member : outer ∈ forest.all)
    (nested : loop ∈ Loop.flattenAll outer.inner) {id : BlockId} (holds : id ∈ loop.body) :
    id ∈ outer.body ∧ id ∉ outer.entries :=
  (isOf.deep outer member).inside (Deep.inner isOf.deep member) nested holds

/-- Two loops that share a block are nested. -/
theorem position {first second : Loop} (left : first ∈ forest.all) (right : second ∈ forest.all)
    {id : BlockId} (inFirst : id ∈ first.body) (inSecond : id ∈ second.body) :
    first = second ∨ second ∈ Loop.flattenAll first.inner ∨
      first ∈ Loop.flattenAll second.inner :=
  isOf.split.position isOf.deep left right inFirst inSecond

/-- No block is an entry of two loops. -/
theorem eq_of_entry {first second : Loop} (left : first ∈ forest.all)
    (right : second ∈ forest.all) {id : BlockId} (inFirst : id ∈ first.entries)
    (inSecond : id ∈ second.entries) : first = second := by
  have here := isOf.entry_mem_body left inFirst
  have there := isOf.entry_mem_body right inSecond
  rcases isOf.position left right here there with same | nested | nested
  · exact same
  · exact absurd inFirst (isOf.nested_body left nested there).2
  · exact absurd inSecond (isOf.nested_body right nested here).2

/-- A loop is told by its head. -/
theorem eq_of_head {first second : Loop} (left : first ∈ forest.all)
    (right : second ∈ forest.all) (same : first.head = second.head) : first = second :=
  isOf.eq_of_entry left right (isOf.head_mem left) (same ▸ isOf.head_mem right)

/-! ## The loop that an edge continues -/

/-- The loop that a block enters has it among its entries. -/
theorem enteredBy?_eq_some_iff {target : BlockId} {loop : Loop} :
    forest.enteredBy? target = some loop ↔ loop ∈ forest.all ∧ target ∈ loop.entries := by
  have sound {found : Loop} (last : forest.enteredBy? target = some found) :
      found ∈ forest.all ∧ target ∈ found.entries := by
    simpa [enteredBy?] using List.mem_of_getLast? last
  refine ⟨sound, fun ⟨member, isEntry⟩ => ?_⟩
  have among : loop ∈ forest.all.filter fun loop => target ∈ loop.entries :=
    List.mem_filter.2 ⟨member, decide_eq_true isEntry⟩
  have last : forest.enteredBy? target = some _ :=
    List.getLast?_eq_some_getLast (List.ne_nil_of_mem among)
  rw [last, isOf.eq_of_entry (sound last).1 member (sound last).2 isEntry]

/-- An edge continues a loop that it leads to an entry of from within. -/
theorem continued?_eq_some_iff {source target : BlockId} {loop : Loop} :
    forest.continued? source target = some loop ↔
      loop ∈ forest.all ∧ target ∈ loop.entries ∧ source ∈ loop.body := by
  simp [continued?, isOf.enteredBy?_eq_some_iff, and_assoc]

/-- An edge continues no loop if it enters none from within. -/
theorem continued?_eq_none_iff {source target : BlockId} :
    forest.continued? source target = none ↔
      ∀ loop ∈ forest.all, target ∈ loop.entries → source ∉ loop.body := by
  simp only [Option.eq_none_iff_forall_ne_some, ne_eq, isOf.continued?_eq_some_iff, not_and]

/-! ## The innermost loop around a block -/

omit isOf in
/-- The last of the values that pass a test, in a list with increasing numbers. -/
theorem getLast?_filter_eq_some_iff {loops : List Loop}
    (increasing : loops.Pairwise fun first second => first.id < second.id) {keep : Loop → Bool}
    {loop : Loop} : (loops.filter keep).getLast? = some loop ↔
      loop ∈ loops ∧ keep loop = true ∧
        ∀ other ∈ loops, keep other = true → other.id ≤ loop.id := by
  constructor
  · intro last
    obtain ⟨member, kept⟩ := List.mem_filter.1 (List.mem_of_getLast? last)
    refine ⟨member, kept, fun other among passes => ?_⟩
    obtain ⟨front, split⟩ := List.getLast?_eq_some_iff.1 last
    have smaller := increasing.sublist (List.filter_sublist (p := keep))
    rw [split, List.pairwise_append] at smaller
    have here : other ∈ front ++ [loop] := split ▸ List.mem_filter.2 ⟨among, passes⟩
    rcases List.mem_append.1 here with before | same
    · exact Nat.le_of_lt (smaller.2.2 other before loop (by simp))
    · exact Nat.le_of_eq (congrArg Loop.id (List.mem_singleton.1 same))
  · rintro ⟨member, kept, greatest⟩
    have among := List.mem_filter.2 ⟨member, kept⟩
    obtain ⟨final, last⟩ : ∃ final, (loops.filter keep).getLast? = some final :=
      ⟨_, List.getLast?_eq_some_getLast (List.ne_nil_of_mem among)⟩
    obtain ⟨front, split⟩ := List.getLast?_eq_some_iff.1 last
    have smaller := increasing.sublist (List.filter_sublist (p := keep))
    rw [split, List.pairwise_append] at smaller
    rw [split] at among
    rcases List.mem_append.1 among with before | same
    · have first := smaller.2.2 loop before final (List.mem_singleton_self _)
      obtain ⟨inside, passes⟩ := List.mem_filter.1 (List.mem_of_getLast? last)
      have second := greatest final inside passes
      omega
    · rw [last, List.mem_singleton.1 same]

/-- The innermost loop of a block holds it, and none of its inner loops does. -/
theorem innermost?_eq_some_iff {id : BlockId} {loop : Loop} :
    forest.innermost? id = some loop ↔
      loop ∈ forest.all ∧ id ∈ loop.body ∧ ∀ inner ∈ loop.inner, id ∉ inner.body := by
  rw [innermost?, around, getLast?_filter_eq_some_iff isOf.ids_increasing]
  simp only [decide_eq_true_eq]
  refine and_congr_right fun member => and_congr_right fun holds => ?_
  constructor
  · intro greatest inner nested here
    have within := Loop.mem_flattenAll_of_mem nested
    have before := isOf.id_lt member within
    have after := greatest inner (Loop.mem_flattenAll_of_inner member within) here
    omega
  · intro direct other among here
    rcases isOf.position member among holds here with rfl | nested | nested
    · exact Nat.le_refl _
    · obtain ⟨inner, first, nested⟩ := Loop.mem_flattenAll.1 nested
      have known := Loop.mem_flattenAll_of_inner member (Loop.mem_flattenAll_of_mem first)
      rcases Loop.mem_flatten.1 nested with rfl | nested
      · exact absurd here (direct _ first)
      · exact absurd (isOf.nested_body known nested here).1 (direct _ first)
    · exact Nat.le_of_lt (isOf.id_lt among nested)

/-- A block has no innermost loop if no outermost loop holds it. -/
theorem innermost?_eq_none_iff {id : BlockId} :
    forest.innermost? id = none ↔ ∀ loop ∈ forest.top, id ∉ loop.body := by
  simp only [innermost?, around, List.getLast?_eq_none_iff, List.filter_eq_nil_iff,
    decide_eq_true_eq]
  constructor
  · exact fun outside loop member => outside loop (Loop.mem_flattenAll_of_mem member)
  · intro outside loop member holds
    obtain ⟨outer, among, nested⟩ := Loop.mem_flattenAll.1 member
    have known : outer ∈ forest.all := Loop.mem_flattenAll_of_mem among
    rcases Loop.mem_flatten.1 nested with rfl | nested
    · exact outside loop among holds
    · exact outside outer among (isOf.nested_body known nested holds).1

/-- The blocks of a region that lie in no loop of it have the same innermost loop. -/
theorem innermost?_eq_iff {around : Option Loop} (owns : forest.Owns around) {id : BlockId}
    (known : id ∈ graph.ids) : forest.innermost? id = around ↔
      id ∈ blocksOf graph around ∧ ∀ inner ∈ forest.inside around, id ∉ inner.body := by
  cases around with
  | none => simp [isOf.innermost?_eq_none_iff, blocksOf, inside, known]
  | some loop => simp [isOf.innermost?_eq_some_iff, blocksOf, inside, owns loop rfl]

/-! ## The loop around a loop -/

/-- A loop directly nested in a region lies in no other loop there. -/
theorem not_nested_of_inside {region : Option Loop} (owns : forest.Owns region) {loop other : Loop}
    (direct : loop ∈ forest.inside region)
    (member : other ∈ Loop.flattenAll (forest.inside region)) :
    loop ∉ Loop.flattenAll other.inner := by
  intro nested
  have isLoop := owns.mem_all (Loop.mem_flattenAll_of_mem direct)
  have isOther := owns.mem_all member
  have holds := isOf.entry_mem_body isLoop (isOf.head_mem isLoop)
  have inOther := (isOf.nested_body isOther nested holds).1
  obtain ⟨outer, among, within⟩ := Loop.mem_flattenAll.1 member
  have isOuter := owns.mem_all (Loop.mem_flattenAll_of_mem among)
  have inOuter : loop.head ∈ outer.body := by
    rcases Loop.mem_flatten.1 within with rfl | within
    · exact inOther
    · exact (isOf.nested_body isOuter within inOther).1
  -- The loop is the one directly nested in the region that holds it, and so it holds itself.
  have same := (isOf.split_inside owns).eq_of_mem direct among holds inOuter
  subst same
  have later := isOf.id_lt isOther nested
  rcases Loop.mem_flatten.1 within with rfl | within
  · omega
  · have earlier := isOf.id_lt isLoop within
    omega

/-- Of the loops that hold a block of a region, those that do not lie in the region are the loop
whose body it is and the loops around that one. -/
theorem not_nested_iff {region : Option Loop} (owns : forest.Owns region) {id : BlockId}
    (inside : id ∈ blocksOf graph region) {loop : Loop} (known : loop ∈ forest.all)
    (holds : id ∈ loop.body) : loop ∉ Loop.flattenAll (forest.inside region) ↔
      ∃ own ∈ region, loop = own ∨ own ∈ Loop.flattenAll loop.inner := by
  cases region with
  | none =>
      have nested : loop ∈ Loop.flattenAll (forest.inside none) := known
      simp [nested]
  | some own =>
      have isOwn := owns own rfl
      simp only [Option.mem_some_iff, exists_eq_left', LoopForest.inside]
      constructor
      · intro outside
        rcases isOf.position isOwn known inside holds with same | nested | outer
        · exact .inl same.symm
        · exact absurd nested outside
        · exact .inr outer
      · rintro (rfl | outer) nested
        · exact Nat.lt_irrefl _ (isOf.id_lt known nested)
        · exact Nat.lt_asymm (isOf.id_lt known outer) (isOf.id_lt isOwn nested)

/-- A loop is directly nested in one loop at most. -/
theorem eq_of_inner {first second loop : Loop} (left : first ∈ forest.all)
    (right : second ∈ forest.all) (inFirst : loop ∈ first.inner) (inSecond : loop ∈ second.inner) :
    first = second := by
  have isLoop := Loop.mem_flattenAll_of_inner left (Loop.mem_flattenAll_of_mem inFirst)
  have holds := isOf.entry_mem_body isLoop (isOf.head_mem isLoop)
  rcases isOf.position left right
    (isOf.nested_body left (Loop.mem_flattenAll_of_mem inFirst) holds).1
    (isOf.nested_body right (Loop.mem_flattenAll_of_mem inSecond) holds).1 with
    same | nested | nested
  · exact same
  · exact absurd (Loop.mem_flattenAll_of_mem inSecond)
      (isOf.not_nested_of_inside (owns_some left) inFirst nested)
  · exact absurd (Loop.mem_flattenAll_of_mem inFirst)
      (isOf.not_nested_of_inside (owns_some right) inSecond nested)

/-- The parent of a loop holds it among its inner loops. -/
theorem parent?_eq_some_iff {loop outer : Loop} (member : loop ∈ forest.all) :
    forest.parent? loop = some outer ↔ outer ∈ forest.all ∧ loop ∈ outer.inner := by
  have passes {outer : Loop} (known : outer ∈ forest.all) :
      (outer.inner.any fun inner => inner.id = loop.id) = true ↔ loop ∈ outer.inner := by
    rw [List.any_eq_true]
    constructor
    · rintro ⟨inner, among, same⟩
      have isInner := Loop.mem_flattenAll_of_inner known (Loop.mem_flattenAll_of_mem among)
      exact isOf.eq_of_id isInner member (of_decide_eq_true same) ▸ among
    · exact fun nested => ⟨loop, nested, decide_eq_true rfl⟩
  have sound {found : Loop} (first : forest.parent? loop = some found) :
      found ∈ forest.all ∧ loop ∈ found.inner := by
    unfold parent? at first
    have known := List.mem_of_find?_eq_some first
    have test := List.find?_some first
    exact ⟨known, (passes known).1 test⟩
  refine ⟨sound, fun ⟨known, nested⟩ => ?_⟩
  cases first : forest.parent? loop with
  | none =>
      have none := List.find?_eq_none.1 first outer known
      exact absurd ((passes known).2 nested) none
  | some found =>
      obtain ⟨isFound, around⟩ := sound first
      rw [isOf.eq_of_inner isFound known around nested]

/-- An outermost loop has no parent. -/
theorem parent?_eq_none {loop : Loop} (top : loop ∈ forest.top) : forest.parent? loop = none := by
  refine Option.eq_none_iff_forall_ne_some.2 fun outer isParent => ?_
  obtain ⟨known, nested⟩ :=
    (isOf.parent?_eq_some_iff (Loop.mem_flattenAll_of_mem top)).1 isParent
  exact isOf.not_nested_of_inside owns_none top known (Loop.mem_flattenAll_of_mem nested)

/-- The loop around a loop is the region in which it is directly nested. -/
theorem parent?_eq {around : Option Loop} (owns : forest.Owns around) {loop : Loop}
    (nested : loop ∈ forest.inside around) : forest.parent? loop = around := by
  cases around with
  | none => exact isOf.parent?_eq_none nested
  | some outer =>
      have known := owns outer rfl
      exact (isOf.parent?_eq_some_iff
        (Loop.mem_flattenAll_of_inner known (Loop.mem_flattenAll_of_mem nested))).2 ⟨known, nested⟩

end IsOf

end LoopForest

end GotoFree
