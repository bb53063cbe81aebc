import Mathlib.Data.List.Nodup
import GotoFree.Flow.Dominance
import GotoFree.Proofs.Walk

/-!
# Dominator trees of graphs without cycles

`Rooted.Ordered` is what the walk establishes of a rooted graph without cycles: its order lists the
nodes reached from the root, each before its successors. On such a graph the dominators of a node
form a chain (`mem_dominated_or`), so the last of them is the immediate one, and an edge into the
part below a node from outside leads to that node itself (`Below.eq_of_enters`). The dominator tree
lists under each node those whose immediate dominator it is (`hangs_dominatorTree`).
-/

namespace GotoFree

open Relation

variable {α : Type} [DecidableEq α]

namespace Rooted

/-- What a walk over a graph without cycles establishes of its order. -/
structure Ordered (graph : Rooted α) : Prop where
  mem_iff : ∀ {node}, node ∈ graph.order ↔ ReflTransGen (Leads graph.next) graph.root node
  nodup : graph.order.Nodup
  settled : Walk.Settled graph.next graph.order

/-- The part of an acyclic graph below a root is ordered by a walk. -/
theorem ordered_ofRoot {next : α → List α} {nodes : List α} {size : Nat} {root : α}
    (closed : Closed next nodes) (acyclic : Acyclic next) (enough : nodes.length ≤ size)
    (inside : root ∈ nodes) : (ofRoot next size root).Ordered where
  mem_iff := mem_reversePostorder closed enough inside
  nodup := nodup_reversePostorder closed enough inside
  settled := settled_reversePostorder closed acyclic enough inside

/-- The position of a node in the order. -/
def position (graph : Rooted α) (node : α) : Nat := graph.order.idxOf node

/-- A node is reached from the root without passing another one. -/
def Avoids (graph : Rooted α) (avoided node : α) : Prop :=
  graph.root ≠ avoided ∧
    ReflTransGen (fun source target => target ∈ graph.next source ∧ target ≠ avoided)
      graph.root node

/-- A node is another one or is dominated by it. -/
def Below (graph : Rooted α) (top node : α) : Prop := node = top ∨ node ∈ graph.dominated top

/-- The immediate dominator of a node, if it has one. -/
def idom? (graph : Rooted α) (node : α) : Option α := graph.immediateDominators.lookup node

end Rooted

namespace Rooted.Ordered

variable {graph : Rooted α} (ordered : graph.Ordered)

include ordered

omit [DecidableEq α] in
theorem root_mem : graph.root ∈ graph.order := ordered.mem_iff.2 .refl

omit [DecidableEq α] in
/-- Successors of ordered nodes are ordered, too. -/
theorem closed : Closed graph.next graph.order := fun _ member _ edge =>
  ordered.mem_iff.2 ((ordered.mem_iff.1 member).tail edge)

/-- Edges lead on in the order. -/
theorem position_lt_of_edge {source target : α} (member : source ∈ graph.order)
    (edge : target ∈ graph.next source) : graph.position source < graph.position target :=
  ordered.settled.idxOf_lt ordered.nodup member edge

/-- Paths lead on in the order. -/
theorem position_lt_of_path {source target : α} (member : source ∈ graph.order)
    (path : TransGen (Leads graph.next) source target) :
    graph.position source < graph.position target := by
  induction path with
  | single edge => exact ordered.position_lt_of_edge member edge
  | tail path edge ih =>
      have among := ordered.closed.of_path path.to_reflTransGen member
      exact Nat.lt_trans ih (ordered.position_lt_of_edge among edge)

omit ordered in
/-- A node is told by its position. -/
theorem eq_of_position_eq {first second : α} (member : first ∈ graph.order)
    (same : graph.position first = graph.position second) : first = second := by
  have bound := List.idxOf_lt_length_iff.2 member
  have here := List.getElem_idxOf bound
  unfold position at same
  simp only [same] at here bound
  rw [← here]
  exact List.getElem_idxOf bound

/-- The order lists the nodes by position. -/
theorem increasing : graph.order.Pairwise fun first second =>
    graph.position first < graph.position second := by
  rw [List.pairwise_iff_getElem]
  intro i j left right before
  have here := List.get_idxOf ordered.nodup ⟨i, left⟩
  have there := List.get_idxOf ordered.nodup ⟨j, right⟩
  simp only [List.get_eq_getElem] at here there
  simp only [position, here, there, before]

/-- The walk that leaves out a node reaches what is reached around it. -/
theorem mem_reachedWithout {avoided node : α} :
    node ∈ graph.reachedWithout avoided ↔ graph.Avoids avoided node := by
  unfold reachedWithout Avoids
  split
  · next same => simp [same]
  · next differs =>
    have closed : Closed (fun node => (graph.next node).filter (· ≠ avoided)) graph.order :=
      fun source member target edge =>
        ordered.closed source member target (List.mem_of_mem_filter edge)
    rw [mem_reachable closed (Nat.le_refl _) (by simpa using ordered.root_mem)]
    have edges : Leads (fun node => (graph.next node).filter (· ≠ avoided)) =
        fun source target => target ∈ graph.next source ∧ target ≠ avoided := by
      funext source target
      simp [Leads]
    rw [edges]
    simp [differs]

/-- A node is dominated by another one if it cannot be reached around it. -/
theorem mem_dominated {node other : α} : other ∈ graph.dominated node ↔
    other ∈ graph.order ∧ other ≠ node ∧ ¬ graph.Avoids node other := by
  simp [dominated, ordered.mem_reachedWithout]

/-- A dominator of a node dominates its predecessors, or is one. -/
theorem dominates_source {top source target : α} (member : source ∈ graph.order)
    (edge : target ∈ graph.next source) (below : target ∈ graph.dominated top) :
    graph.Below top source := by
  obtain ⟨_, differs, blocked⟩ := ordered.mem_dominated.1 below
  by_contra apart
  simp only [Below, ordered.mem_dominated, not_or, not_and, not_not] at apart
  obtain ⟨root, path⟩ := apart.2 member apart.1
  exact blocked ⟨root, path.tail ⟨edge, differs⟩⟩

/-- Nothing dominates the root. -/
theorem not_mem_dominated_root {top : α} : graph.root ∉ graph.dominated top := by
  intro below
  obtain ⟨_, differs, blocked⟩ := ordered.mem_dominated.1 below
  exact blocked ⟨differs, .refl⟩

/-- Every node lies below the root. -/
theorem below_root {node : α} (member : node ∈ graph.order) : graph.Below graph.root node := by
  by_cases same : node = graph.root
  · exact .inl same
  · exact .inr (ordered.mem_dominated.2 ⟨member, same, fun avoids => avoids.1 rfl⟩)

/-- A dominator leads to what it dominates. -/
theorem path_of_dominated {top node : α} (below : node ∈ graph.dominated top) :
    TransGen (Leads graph.next) top node := by
  have path := ordered.mem_iff.1 (ordered.mem_dominated.1 below).1
  induction path with
  | refl => exact absurd below ordered.not_mem_dominated_root
  | tail path edge ih =>
      rcases ordered.dominates_source (ordered.mem_iff.2 path) edge below with rfl | below
      · exact .single edge
      · exact .tail (ih below) edge

/-- A dominator of a reached node is reached. -/
theorem mem_of_dominates {top node : α} (below : node ∈ graph.dominated top) :
    top ∈ graph.order := by
  have path := ordered.mem_iff.1 (ordered.mem_dominated.1 below).1
  induction path with
  | refl => exact absurd below ordered.not_mem_dominated_root
  | tail path edge ih =>
      rcases ordered.dominates_source (ordered.mem_iff.2 path) edge below with same | below
      · exact same ▸ ordered.mem_iff.2 path
      · exact ih below

/-- A node stands behind those that dominate it. -/
theorem position_lt_of_dominated {top node : α} (below : node ∈ graph.dominated top) :
    graph.position top < graph.position node :=
  ordered.position_lt_of_path (ordered.mem_of_dominates below) (ordered.path_of_dominated below)

/-- A node does not stand in front of those it lies below. -/
theorem position_le_of_below {top node : α} (below : graph.Below top node) :
    graph.position top ≤ graph.position node := by
  rcases below with rfl | below
  · exact Nat.le_refl _
  · exact Nat.le_of_lt (ordered.position_lt_of_dominated below)

/-- Dominance is transitive. -/
theorem dominated_trans {top middle node : α} (upper : middle ∈ graph.dominated top)
    (lower : node ∈ graph.dominated middle) : node ∈ graph.dominated top := by
  have upperBefore := ordered.position_lt_of_dominated upper
  have lowerBefore := ordered.position_lt_of_dominated lower
  obtain ⟨member, -, -⟩ := ordered.mem_dominated.1 lower
  refine ordered.mem_dominated.2 ⟨member, ?_, ?_⟩
  · rintro rfl
    omega
  · -- A path to the node that avoids the top would pass the middle and avoid the top up to there.
    rintro ⟨differs, path⟩
    have blocked := (ordered.mem_dominated.1 upper).2.2
    refine blocked ⟨differs, ?_⟩
    clear lowerBefore member
    induction path with
    | refl => exact absurd lower ordered.not_mem_dominated_root
    | @tail source target path edge ih =>
        have among : source ∈ graph.order :=
          ordered.mem_iff.2 (ReflTransGen.mono (fun _ _ edge => edge.1) _ _ path)
        rcases ordered.dominates_source among edge.1 lower with same | lower
        · exact same ▸ path
        · exact ih lower

/-- What lies below something lies below what that lies below. -/
theorem Below.trans {top middle node : α} (upper : graph.Below top middle)
    (lower : graph.Below middle node) : graph.Below top node := by
  rcases lower with rfl | lower
  · exact upper
  · rcases upper with rfl | upper
    · exact .inr lower
    · exact .inr (ordered.dominated_trans upper lower)

omit [DecidableEq α] ordered in
/-- Going on from a node that avoids another one meets that one or still avoids it. -/
theorem avoids_or_path {avoided node later : α} (avoids : graph.Avoids avoided node)
    (path : ReflTransGen (Leads graph.next) node later) :
    graph.Avoids avoided later ∨ ReflTransGen (Leads graph.next) node avoided := by
  induction path with
  | refl => exact .inl avoids
  | @tail source target path edge ih =>
      rcases ih with avoids | meets
      · by_cases same : target = avoided
        · exact .inr (same ▸ path.tail edge)
        · exact .inl ⟨avoids.1, avoids.2.tail ⟨edge, same⟩⟩
      · exact .inr meets

/-- Of two dominators of a node the earlier one dominates the other. -/
theorem mem_dominated_of_position_lt {first second node : α}
    (left : node ∈ graph.dominated first) (right : node ∈ graph.dominated second)
    (before : graph.position first < graph.position second) :
    second ∈ graph.dominated first := by
  have member := ordered.mem_of_dominates right
  refine ordered.mem_dominated.2 ⟨member, fun same => ?_, fun avoids => ?_⟩
  · subst same
    omega
  · rcases avoids_or_path avoids (ordered.path_of_dominated right).to_reflTransGen with
      avoids | meets
    · exact (ordered.mem_dominated.1 left).2.2 avoids
    · rcases reflTransGen_iff_eq_or_transGen.1 meets with same | path
      · subst same
        omega
      · have after := ordered.position_lt_of_path member path
        omega

/-- The dominators of a node form a chain. -/
theorem mem_dominated_or {first second node : α} (left : graph.Below first node)
    (right : graph.Below second node) : graph.Below first second ∨ graph.Below second first := by
  rcases left with rfl | left
  · exact .inr right
  · rcases right with rfl | right
    · exact .inl (.inr left)
    · rcases Nat.lt_trichotomy (graph.position first) (graph.position second) with
        before | same | after
      · exact .inl (.inr (ordered.mem_dominated_of_position_lt left right before))
      · exact .inl (.inl
          (eq_of_position_eq (ordered.mem_of_dominates left) same).symm)
      · exact .inr (.inr (ordered.mem_dominated_of_position_lt right left after))

/-- An edge into the part below a node from outside leads to that node. -/
theorem Below.eq_of_enters {top source target : α} (member : source ∈ graph.order)
    (edge : target ∈ graph.next source) (outside : ¬ graph.Below top source)
    (inside : graph.Below top target) : target = top := by
  rcases inside with same | below
  · exact same
  · exact absurd (ordered.dominates_source member edge below) outside

/-! ## Immediate dominators -/

omit [DecidableEq α] ordered in
/-- A table made of some nodes is looked up for each of them. -/
theorem lookup_filterMap [BEq α] [LawfulBEq α] {list : List α} {value : α → Option α} {key : α} :
    (list.filterMap fun node => (value node).map fun found => (node, found)).lookup key =
      if key ∈ list then value key else none := by
  induction list with
  | nil => rfl
  | cons first rest ih =>
      by_cases same : key = first
      · subst same
        cases found : value key with
        | none => simp [found, ih]
        | some _ => simp [found]
      · cases found : value first with
        | none => simp [found, ih, same]
        | some _ => simp [found, ih, same, List.lookup_cons, beq_false_of_ne same]

omit ordered in
/-- The immediate dominator of a node is the last of its dominators. -/
theorem idom?_eq {node : α} (member : node ∈ graph.order) :
    graph.idom? node = (graph.order.filter fun top => node ∈ graph.dominated top).getLast? := by
  have last (node : α) : ((((graph.order.map fun top => (top, graph.dominated top)).filter
      fun entry => node ∈ entry.2).getLast?).map fun entry => (node, entry.1)) =
      ((graph.order.filter fun top => node ∈ graph.dominated top).getLast?).map
        fun top => (node, top) := by
    rw [List.filter_map, List.getLast?_map, Option.map_map]
    rfl
  unfold idom? immediateDominators
  simp only [last]
  rw [lookup_filterMap, if_pos member]

omit ordered in
/-- A node outside has no immediate dominator. -/
theorem idom?_eq_none {node : α} (outside : node ∉ graph.order) : graph.idom? node = none := by
  have last (node : α) : ((((graph.order.map fun top => (top, graph.dominated top)).filter
      fun entry => node ∈ entry.2).getLast?).map fun entry => (node, entry.1)) =
      (((((graph.order.map fun top => (top, graph.dominated top)).filter
      fun entry => node ∈ entry.2).getLast?).map Prod.fst)).map fun top => (node, top) := by
    rw [Option.map_map]
    rfl
  unfold idom? immediateDominators
  simp only [last]
  rw [lookup_filterMap, if_neg outside]

omit ordered in
/-- An immediate dominator dominates. -/
theorem dominated_of_idom? {node top : α} (immediate : graph.idom? node = some top) :
    node ∈ graph.dominated top := by
  by_cases member : node ∈ graph.order
  · rw [idom?_eq member] at immediate
    simpa using List.of_mem_filter (List.mem_of_getLast? immediate)
  · rw [idom?_eq_none member] at immediate
    cases immediate

/-- Every dominator of a node is the immediate one or dominates it. -/
theorem below_idom? {node top other : α} (immediate : graph.idom? node = some top)
    (below : node ∈ graph.dominated other) : graph.Below other top := by
  have member : node ∈ graph.order := (ordered.mem_dominated.1 below).1
  have upper := dominated_of_idom? immediate
  rw [idom?_eq member] at immediate
  have among : other ∈ graph.order.filter fun top => node ∈ graph.dominated top :=
    List.mem_filter.2 ⟨ordered.mem_of_dominates below, by simpa using below⟩
  rcases ordered.mem_dominated_or (.inr below) (.inr upper) with below | above
  · exact below
  · rcases above with same | above
    · exact .inl same.symm
    · -- The last dominator in the order is not before another one.
      have before := ordered.position_lt_of_dominated above
      obtain ⟨front, split⟩ := List.getLast?_eq_some_iff.1 immediate
      have increasing := ordered.increasing.sublist
        (List.filter_sublist : (graph.order.filter fun top => node ∈ graph.dominated top).Sublist _)
      rw [split] at among increasing
      rcases List.mem_append.1 among with among | same
      · have after := (List.pairwise_append.1 increasing).2.2 other among top (by simp)
        omega
      · exact .inl (List.mem_singleton.1 same).symm

/-- Every node but the root has an immediate dominator. -/
theorem exists_idom? {node : α} (member : node ∈ graph.order) (differs : node ≠ graph.root) :
    ∃ top, graph.idom? node = some top := by
  have below : node ∈ graph.dominated graph.root :=
    ordered.mem_dominated.2 ⟨member, differs, fun avoids => avoids.1 rfl⟩
  have among : graph.root ∈ graph.order.filter fun top => node ∈ graph.dominated top :=
    List.mem_filter.2 ⟨ordered.root_mem, by simpa using below⟩
  rw [idom?_eq member]
  exact ⟨_, List.getLast?_eq_some_getLast (List.ne_nil_of_mem among)⟩

/-- What lies below a node is that node or lies below one that hangs under it. -/
theorem below_iff {top node : α} : graph.Below top node ↔
    node = top ∨ ∃ child, graph.idom? child = some top ∧ graph.Below child node := by
  constructor
  · rintro (same | below)
    · exact .inl same
    · right
      induction position : graph.position node using Nat.strongRecOn generalizing node with
      | ind _ ih =>
        obtain ⟨member, differs, -⟩ := ordered.mem_dominated.1 below
        obtain ⟨parent, immediate⟩ := ordered.exists_idom? member fun same =>
          ordered.not_mem_dominated_root (same ▸ below)
        rcases ordered.below_idom? immediate below with rfl | above
        · exact ⟨node, immediate, .inl rfl⟩
        · have upper := dominated_of_idom? immediate
          have before := ordered.position_lt_of_dominated upper
          obtain ⟨child, hangs, lower⟩ := ih _ (position ▸ before) above rfl
          exact ⟨child, hangs, Below.trans ordered lower (.inr upper)⟩
  · rintro (same | ⟨child, immediate, below⟩)
    · exact .inl same
    · exact Below.trans ordered (.inr (dominated_of_idom? immediate)) below

/-- No node lies below another one that hangs below it. -/
theorem not_below_of_idom? {top node : α} (immediate : graph.idom? node = some top) :
    ¬ graph.Below node top := by
  intro below
  have before := ordered.position_lt_of_dominated (dominated_of_idom? immediate)
  have after := ordered.position_le_of_below below
  omega

/-- The parts below two nodes that hang under one node are apart. -/
theorem eq_of_below_both {top first second node : α} (left : graph.idom? first = some top)
    (right : graph.idom? second = some top) (belowFirst : graph.Below first node)
    (belowSecond : graph.Below second node) : first = second := by
  rcases ordered.mem_dominated_or belowFirst belowSecond with (same | below) | (same | below)
  · exact same.symm
  · exact absurd (ordered.below_idom? right below) (ordered.not_below_of_idom? left)
  · exact same
  · exact absurd (ordered.below_idom? left below) (ordered.not_below_of_idom? right)

/-- An edge from a node to one below it leads to a node that hangs under it. -/
theorem idom?_of_edge {top node : α} (member : top ∈ graph.order)
    (edge : node ∈ graph.next top) (below : graph.Below top node) :
    graph.idom? node = some top := by
  have before := ordered.position_lt_of_edge member edge
  rcases below with same | below
  · subst same
    omega
  · obtain ⟨parent, immediate⟩ := ordered.exists_idom? (ordered.mem_dominated.1 below).1
      fun same => ordered.not_mem_dominated_root (same ▸ below)
    have upper := ordered.below_idom? immediate below
    have lower := ordered.dominates_source member edge (dominated_of_idom? immediate)
    have first := ordered.position_le_of_below upper
    have second := ordered.position_le_of_below lower
    rw [immediate, eq_of_position_eq member (by omega : graph.position top = graph.position parent)]

/-- A node other than the root has a predecessor, which lies below the node it hangs under. -/
theorem exists_source {top node : α} (immediate : graph.idom? node = some top) :
    ∃ source ∈ graph.order, node ∈ graph.next source ∧ graph.Below top source ∧
      ¬ graph.Below node source := by
  have below := dominated_of_idom? immediate
  have member := (ordered.mem_dominated.1 below).1
  rcases ReflTransGen.cases_tail (ordered.mem_iff.1 member) with same | ⟨source, path, edge⟩
  · exact absurd (same ▸ below) ordered.not_mem_dominated_root
  · have among := ordered.mem_iff.2 path
    refine ⟨source, among, edge, ordered.dominates_source among edge below, fun inside => ?_⟩
    have before := ordered.position_lt_of_edge among edge
    have after := ordered.position_le_of_below inside
    omega

end Rooted.Ordered

/-! ## The tree -/

namespace Rooted

/-- Each node of a tree has under it, in their order, the nodes whose immediate dominator it is. -/
inductive Hangs (graph : Rooted α) : Rose α → Prop where
  | node {top : α} {children : List (Rose α)} (member : top ∈ graph.order)
      (values : children.map Rose.value =
        graph.order.filter fun other => graph.idom? other = some top)
      (hang : ∀ child ∈ children, Hangs graph child) : Hangs graph (.node top children)

@[simp] theorem value_subtree {order : List α} {idom : List (α × α)} {height : Nat} {node : α} :
    (subtree order idom height node).value = node := by
  cases height <;> rfl

/-- A subtree holds the nodes below its value, as they hang. -/
theorem hangs_subtree {graph : Rooted α} (ordered : graph.Ordered) {height : Nat} {node : α}
    (member : node ∈ graph.order)
    (enough : graph.order.length ≤ height + graph.position node) :
    graph.Hangs (subtree graph.order graph.immediateDominators height node) := by
  induction height generalizing node with
  | zero =>
      have bound := List.idxOf_lt_length_iff.2 member
      simp only [position] at enough
      omega
  | succ height ih =>
      refine .node member ?_ fun child among => ?_
      · rw [List.map_map]
        exact List.map_id'' (fun _ => value_subtree) _
      · obtain ⟨other, listed, rfl⟩ := List.mem_map.1 among
        obtain ⟨inside, immediate⟩ := List.mem_filter.1 listed
        have upper := Ordered.dominated_of_idom? (of_decide_eq_true immediate)
        have before := ordered.position_lt_of_dominated upper
        exact ih inside (by omega)

/-- The dominator tree holds the nodes as they hang. -/
theorem hangs_dominatorTree {graph : Rooted α} (ordered : graph.Ordered) :
    graph.Hangs graph.dominatorTree :=
  hangs_subtree ordered ordered.root_mem (Nat.le_add_right _ _)

@[simp] theorem value_dominatorTree {graph : Rooted α} :
    graph.dominatorTree.value = graph.root :=
  value_subtree

end Rooted

end GotoFree
