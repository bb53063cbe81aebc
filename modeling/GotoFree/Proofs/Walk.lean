import Mathlib.Data.List.Basic
import Mathlib.Logic.Relation
import Mathlib.Tactic.ByContra
import Mathlib.Tactic.Tauto
import GotoFree.Flow.Walk

/-!
# What depth-first walks reach

A walk enters exactly the nodes that paths from its roots lead to (`mem_reachable`), and each of
them once (`nodup_reversePostorder`). The reverse post-order starts with the root and lists every
node before those of its successors that do not lead back to it (`descends_reversePostorder`), so
before all of them on a graph without cycles (`settled_reversePostorder`).

`Grows` says what a walk adds; it holds of one call and of a whole list of calls, so the induction
on the depth needs it in one form only.
-/

namespace GotoFree

open Relation

variable {α : Type}

/-- An edge of the graph in which each node lists its successors. -/
def Leads (next : α → List α) (source target : α) : Prop := target ∈ next source

/-- No edge leaves the nodes of a list. -/
def Closed (next : α → List α) (nodes : List α) : Prop :=
  ∀ node ∈ nodes, ∀ target ∈ next node, target ∈ nodes

/-- No path leads from a node back to it. -/
def Acyclic (next : α → List α) : Prop := ∀ node, ¬ TransGen (Leads next) node node

/-- A path stays among nodes that are closed under successors. -/
theorem Closed.of_path {next : α → List α} {nodes : List α} (closed : Closed next nodes)
    {source target : α} (path : ReflTransGen (Leads next) source target)
    (member : source ∈ nodes) : target ∈ nodes := by
  induction path with
  | refl => exact member
  | tail _ edge ih => exact closed _ ih _ edge

namespace Walk

/-- What exploring a list of roots adds to a walk. -/
structure Grows (next : α → List α) (walk : Walk α) (roots : List α) (later : Walk α) :
    Prop where
  kept : ∀ node ∈ walk.entered, node ∈ later.entered
  roots_entered : ∀ node ∈ roots, node ∈ later.entered
  reached : ∀ node ∈ later.entered, node ∈ walk.entered ∨
    ∃ root ∈ roots, ReflTransGen (Leads next) root node
  explored : ∀ node ∈ later.entered, node ∈ walk.entered ∨
    ∀ target ∈ next node, target ∈ later.entered
  mem_left : ∀ node, node ∈ later.left ↔
    node ∈ walk.left ∨ node ∈ later.entered ∧ node ∉ walk.entered
  nodup_left : walk.left.Nodup → (∀ node ∈ walk.left, node ∈ walk.entered) → later.left.Nodup

/-- A walk from nodes that have been entered is over at once. -/
theorem Grows.refl {next : α → List α} {walk : Walk α} {roots : List α}
    (known : ∀ root ∈ roots, root ∈ walk.entered) : Grows next walk roots walk where
  kept _ member := member
  roots_entered := known
  reached _ member := .inl member
  explored _ member := .inl member
  mem_left node := by simp
  nodup_left distinct _ := distinct

/-- What a walk has left, it has entered. -/
theorem Grows.left_entered {next : α → List α} {walk later : Walk α} {roots : List α}
    (grows : Grows next walk roots later) (inside : ∀ node ∈ walk.left, node ∈ walk.entered) :
    ∀ node ∈ later.left, node ∈ later.entered := by
  intro node member
  rcases (grows.mem_left node).1 member with earlier | ⟨entered, _⟩
  · exact grows.kept node (inside node earlier)
  · exact entered

variable [DecidableEq α]

/-- The number of nodes of a list that a walk has not entered. -/
def unentered (walk : Walk α) (nodes : List α) : Nat :=
  (nodes.filter fun node => node ∉ walk.entered).length

/-- A walk leaves no more nodes to enter than before. -/
theorem unentered_le {walk later : Walk α} {nodes : List α}
    (kept : ∀ node ∈ walk.entered, node ∈ later.entered) :
    later.unentered nodes ≤ walk.unentered nodes := by
  apply List.Sublist.length_le
  apply List.monotone_filter_right _
  intro node fresh
  simp only [decide_eq_true_eq] at fresh ⊢
  exact fun known => fresh (kept node known)

/-- Entering a node leaves fewer. -/
theorem unentered_enter_lt {walk : Walk α} {nodes : List α} {node : α} (member : node ∈ nodes)
    (fresh : node ∉ walk.entered) :
    ({ walk with entered := node :: walk.entered } : Walk α).unentered nodes <
      walk.unentered nodes := by
  induction nodes with
  | nil => cases member
  | cons first rest ih =>
      have shrinks : ({ walk with entered := node :: walk.entered } : Walk α).unentered rest ≤
          walk.unentered rest :=
        unentered_le fun known inside => List.mem_cons_of_mem _ inside
      simp only [unentered] at shrinks ih ⊢
      by_cases here : first = node
      · subst here
        simp only [List.filter_cons, List.mem_cons, true_or, not_true, decide_false, fresh,
          not_false_eq_true, decide_true, if_true, List.length_cons]
        exact Nat.lt_succ_of_le (by simpa using shrinks)
      · have later : node ∈ rest := (List.mem_cons.1 member).resolve_left (Ne.symm here)
        by_cases known : first ∈ walk.entered
        · simpa [List.filter_cons, here, known] using ih later
        · simpa [List.filter_cons, here, known] using ih later

/-- A walk from several nodes goes on from one to the next. -/
theorem Grows.cons {next : α → List α} {walk middle later : Walk α} {root : α} {roots : List α}
    (first : Grows next walk [root] middle) (others : Grows next middle roots later) :
    Grows next walk (root :: roots) later where
  kept node member := others.kept node (first.kept node member)
  roots_entered node member := by
    rcases List.mem_cons.1 member with rfl | member
    · exact others.kept node (first.roots_entered node (by simp))
    · exact others.roots_entered node member
  reached node member := by
    rcases others.reached node member with earlier | ⟨start, among, path⟩
    · rcases first.reached node earlier with earliest | ⟨start, among, path⟩
      · exact .inl earliest
      · exact .inr ⟨start, by simpa using .inl (by simpa using among), path⟩
    · exact .inr ⟨start, List.mem_cons_of_mem _ among, path⟩
  explored node member := by
    rcases others.explored node member with earlier | all
    · rcases first.explored node earlier with earliest | all
      · exact .inl earliest
      · exact .inr fun target edge => others.kept target (all target edge)
    · exact .inr all
  mem_left node := by
    rw [others.mem_left, first.mem_left]
    have grown := first.kept node
    have grownAgain := others.kept node
    tauto
  nodup_left distinct inside :=
    others.nodup_left (first.nodup_left distinct inside) (first.left_entered inside)

/-- Exploring a list of roots one after the other grows the walk, if exploring one does. -/
theorem Grows.foldl {next : α → List α} {nodes : List α} {depth : Nat}
    (single : ∀ (walk : Walk α) (node : α), node ∈ nodes →
      walk.unentered nodes ≤ depth → Grows next walk [node] (explore next depth walk node))
    {roots : List α} (inside : ∀ root ∈ roots, root ∈ nodes) {walk : Walk α}
    (bounded : walk.unentered nodes ≤ depth) :
    Grows next walk roots (roots.foldl (explore next depth) walk) := by
  induction roots generalizing walk with
  | nil => exact .refl (by simp)
  | cons root rest ih =>
      have first := single walk root (inside root (by simp)) bounded
      refine first.cons (ih (fun node member => inside node (List.mem_cons_of_mem _ member)) ?_)
      exact Nat.le_trans (unentered_le first.kept) bounded

/-- Exploring a node enters all that is reached from it by nodes not entered yet. -/
theorem grows_explore {next : α → List α} {nodes : List α} (closed : Closed next nodes)
    {depth : Nat} {walk : Walk α} {node : α} (member : node ∈ nodes)
    (bounded : walk.unentered nodes ≤ depth) :
    Grows next walk [node] (explore next depth walk node) := by
  induction depth generalizing walk node with
  | zero =>
      refine .refl fun root among => ?_
      simp only [List.mem_singleton] at among
      subst among
      by_contra fresh
      have room := unentered_enter_lt member fresh
      omega
  | succ depth ih =>
      unfold explore
      split
      · next known => exact .refl (by simpa using known)
      · next fresh =>
        have room := unentered_enter_lt member fresh
        have inner : Grows next { walk with entered := node :: walk.entered } (next node)
            ((next node).foldl (explore next depth)
              { walk with entered := node :: walk.entered }) :=
          .foldl (fun walk node member bounded => ih member bounded) (closed node member)
            (by omega)
        refine ⟨?_, ?_, ?_, ?_, ?_, ?_⟩
        · exact fun known among => inner.kept known (List.mem_cons_of_mem _ among)
        · intro root among
          simp only [List.mem_singleton] at among
          subst among
          exact inner.kept root (by simp)
        · intro found among
          rcases inner.reached found among with earlier | ⟨start, edge, path⟩
          · rcases List.mem_cons.1 earlier with rfl | earlier
            · exact .inr ⟨found, by simp, .refl⟩
            · exact .inl earlier
          · exact .inr ⟨node, by simp, .head edge path⟩
        · intro found among
          rcases inner.explored found among with earlier | all
          · rcases List.mem_cons.1 earlier with rfl | earlier
            · exact .inr fun target edge => inner.roots_entered target edge
            · exact .inl earlier
          · exact .inr all
        · intro found
          have entered := inner.kept node (by simp)
          simp only [List.mem_cons, inner.mem_left]
          by_cases same : found = node
          · subst same
            simp [entered, fresh]
          · simp [same]
        · intro distinct inside
          refine List.nodup_cons.2 ⟨fun again => ?_, ?_⟩
          · rcases (inner.mem_left node).1 again with earlier | ⟨_, new⟩
            · exact fresh (inside node earlier)
            · exact new (by simp)
          · exact inner.nodup_left distinct fun known among =>
              List.mem_cons_of_mem _ (inside known among)

/-! ## The order in which nodes are left -/

/-- Each node of a list stands before all of its successors. -/
def Settled (next : α → List α) : List α → Prop
  | [] => True
  | node :: rest => (∀ target ∈ next node, target ∈ rest) ∧ Settled next rest

/-- Each node of a list stands before those of its successors that no path leads back from. -/
def Descends (next : α → List α) : List α → Prop
  | [] => True
  | node :: rest =>
      (∀ target ∈ next node, ¬ ReflTransGen (Leads next) target node → target ∈ rest) ∧
        Descends next rest

omit [DecidableEq α] in
/-- In an acyclic graph a descending list is settled. -/
theorem Descends.settled {next : α → List α} (acyclic : Acyclic next) {nodes : List α}
    (descends : Descends next nodes) : Settled next nodes := by
  induction nodes with
  | nil => trivial
  | cons node rest ih =>
      obtain ⟨first, others⟩ := descends
      refine ⟨fun target edge => first target edge fun back => ?_, ih others⟩
      exact acyclic node (.head' edge back)

omit [DecidableEq α] in
/-- The successors of a node of a settled list stand behind it. -/
theorem Settled.of_append {next : α → List α} {front back : List α} {node : α}
    (settled : Settled next (front ++ node :: back)) : ∀ target ∈ next node, target ∈ back := by
  induction front with
  | nil => exact settled.1
  | cons first rest ih => exact ih settled.2

omit [DecidableEq α] in
/-- The successors of a node of a descending list stand behind it, unless they lead back. -/
theorem Descends.of_append {next : α → List α} {front back : List α} {node : α}
    (descends : Descends next (front ++ node :: back)) :
    ∀ target ∈ next node, ¬ ReflTransGen (Leads next) target node → target ∈ back := by
  induction front with
  | nil => exact descends.1
  | cons first rest ih => exact ih descends.2

/-- In a list without repetition a node stands before those behind it. -/
theorem idxOf_lt_of_mem {front back : List α} {node later : α}
    (distinct : (front ++ node :: back).Nodup) (member : later ∈ back) :
    (front ++ node :: back).idxOf node < (front ++ node :: back).idxOf later := by
  obtain ⟨-, distinctBack, apart⟩ := List.nodup_append.1 distinct
  have differs : node ≠ later := fun same => (List.nodup_cons.1 distinctBack).1 (same ▸ member)
  have nodeNew : node ∉ front := fun before => apart node before node (by simp) rfl
  have laterNew : later ∉ front := fun before => apart later before later (by simp [member]) rfl
  rw [List.idxOf_append_of_notMem nodeNew, List.idxOf_append_of_notMem laterNew,
    List.idxOf_cons_self, List.idxOf_cons_ne _ differs]
  omega

/-- In a settled list without repetition a node stands before its successors. -/
theorem Settled.idxOf_lt {next : α → List α} {order : List α} (settled : Settled next order)
    (distinct : order.Nodup) {source target : α} (member : source ∈ order)
    (edge : target ∈ next source) : order.idxOf source < order.idxOf target := by
  obtain ⟨front, back, rfl⟩ := List.append_of_mem member
  exact idxOf_lt_of_mem distinct (settled.of_append target edge)

/-- In a descending list without repetition a node stands before its successors that do not lead
back to it. -/
theorem Descends.idxOf_lt {next : α → List α} {order : List α} (descends : Descends next order)
    (distinct : order.Nodup) {source target : α} (member : source ∈ order)
    (edge : target ∈ next source) (apart : ¬ ReflTransGen (Leads next) target source) :
    order.idxOf source < order.idxOf target := by
  obtain ⟨front, back, rfl⟩ := List.append_of_mem member
  exact idxOf_lt_of_mem distinct (descends.of_append target edge apart)

/-- The nodes that a walk has entered and not left lead to a node. -/
def LeadsFromOpen (next : α → List α) (walk : Walk α) (node : α) : Prop :=
  ∀ known ∈ walk.entered, known ∉ walk.left → TransGen (Leads next) known node

/-- The nodes that stay open lead where the open ones did. -/
theorem Grows.leadsFromOpen {next : α → List α} {walk later : Walk α} {roots : List α} {node : α}
    (grows : Grows next walk roots later) (leads : LeadsFromOpen next walk node) :
    LeadsFromOpen next later node := by
  intro known entered remains
  have before : known ∈ walk.entered := by
    by_contra fresh
    exact remains ((grows.mem_left known).2 (.inr ⟨entered, fresh⟩))
  exact leads known before fun earlier => remains ((grows.mem_left known).2 (.inl earlier))

/-- Exploring a list of nodes keeps a list descending, if exploring one of them does. -/
theorem Descends.foldl {next : α → List α} {nodes : List α} (closed : Closed next nodes)
    {depth : Nat} (single : ∀ (walk : Walk α) (node : α), node ∈ nodes →
      walk.unentered nodes ≤ depth → LeadsFromOpen next walk node → Descends next walk.left →
        Descends next (explore next depth walk node).left)
    {targets : List α} (inside : ∀ target ∈ targets, target ∈ nodes) {walk : Walk α}
    (bounded : walk.unentered nodes ≤ depth)
    (leads : ∀ target ∈ targets, LeadsFromOpen next walk target)
    (descends : Descends next walk.left) :
    Descends next (targets.foldl (explore next depth) walk).left := by
  induction targets generalizing walk with
  | nil => exact descends
  | cons target rest ih =>
      have member := inside target (by simp)
      have grows := grows_explore closed member bounded
      refine ih (fun other later => inside other (List.mem_cons_of_mem _ later))
        (Nat.le_trans (unentered_le grows.kept) bounded)
        (fun other later => grows.leadsFromOpen (leads other (List.mem_cons_of_mem _ later))) ?_
      exact single walk target member bounded (leads target (by simp)) descends

/-- A node is left before the nodes that lead to it and that it does not lead to. A successor that
is not left by then is still open, so it lies on the way to the node. -/
theorem descends_explore {next : α → List α} {nodes : List α} (closed : Closed next nodes)
    {depth : Nat} {walk : Walk α} {node : α} (member : node ∈ nodes)
    (bounded : walk.unentered nodes ≤ depth) (leads : LeadsFromOpen next walk node)
    (descends : Descends next walk.left) :
    Descends next (explore next depth walk node).left := by
  induction depth generalizing walk node with
  | zero => exact descends
  | succ depth ih =>
      unfold explore
      split
      · exact descends
      · next fresh =>
        have room := unentered_enter_lt member fresh
        have less : ({ walk with entered := node :: walk.entered } : Walk α).unentered nodes ≤
            depth := by omega
        have grows : Grows next { walk with entered := node :: walk.entered } (next node)
            ((next node).foldl (explore next depth)
              { walk with entered := node :: walk.entered }) :=
          .foldl (fun walk node => grows_explore closed) (closed node member) less
        refine ⟨fun target edge apart => ?_, ?_⟩
        · by_contra remains
          have before : target ∈ node :: walk.entered := by
            by_contra new
            exact remains ((grows.mem_left target).2 (.inr ⟨grows.roots_entered target edge, new⟩))
          rcases List.mem_cons.1 before with rfl | before
          · exact apart .refl
          · refine apart (leads target before fun earlier => ?_).to_reflTransGen
            exact remains ((grows.mem_left target).2 (.inl earlier))
        · refine Descends.foldl closed (fun walk node member bounded leads descends =>
            ih member bounded leads descends) (closed node member) less ?_ descends
          intro target edge known entered remains
          rcases List.mem_cons.1 entered with rfl | entered
          · exact .single edge
          · exact .tail (leads known entered remains) edge

end Walk

section Reached

variable [DecidableEq α] {next : α → List α} {nodes : List α} {size : Nat}

/-- There are no more nodes to enter than there are nodes. -/
theorem unentered_start_le (nodes : List α) :
    (Walk.start : Walk α).unentered nodes ≤ nodes.length :=
  List.length_filter_le _ _

/-- The nodes that a walk over a list of roots enters are those that paths from them lead to. -/
theorem mem_reachable (closed : Closed next nodes) (enough : nodes.length ≤ size)
    {roots : List α} (inside : ∀ root ∈ roots, root ∈ nodes) {node : α} :
    node ∈ reachable next size roots ↔ ∃ root ∈ roots, ReflTransGen (Leads next) root node := by
  have grows : Walk.Grows next .start roots (roots.foldl (Walk.explore next size) .start) :=
    .foldl (fun walk node => Walk.grows_explore closed) inside
      (Nat.le_trans (unentered_start_le nodes) enough)
  constructor
  · intro entered
    exact (grows.reached node entered).resolve_left (by simp [Walk.start])
  · rintro ⟨root, among, path⟩
    induction path with
    | refl => exact grows.roots_entered root among
    | tail _ edge ih =>
        exact (grows.explored _ ih).resolve_left (by simp [Walk.start]) _ edge

variable {root : α}

/-- A walk from the root enters what is reached from it. -/
theorem grows_from_start (closed : Closed next nodes) (enough : nodes.length ≤ size)
    (inside : root ∈ nodes) :
    Walk.Grows next .start [root] (Walk.start.explore next size root) :=
  Walk.grows_explore closed inside (Nat.le_trans (unentered_start_le nodes) enough)

/-- The reverse post-order lists the nodes that paths from the root lead to. -/
theorem mem_reversePostorder (closed : Closed next nodes) (enough : nodes.length ≤ size)
    (inside : root ∈ nodes) {node : α} :
    node ∈ reversePostorder next size root ↔ ReflTransGen (Leads next) root node := by
  have grows := grows_from_start closed enough inside
  have reaches : node ∈ reachable next size [root] ↔ _ :=
    mem_reachable closed enough (by simpa using inside)
  simp only [List.mem_singleton, exists_eq_left] at reaches
  rw [← reaches]
  simpa [reversePostorder, reachable, Walk.start] using grows.mem_left node

/-- No node is listed twice in the order. -/
theorem nodup_reversePostorder (closed : Closed next nodes) (enough : nodes.length ≤ size)
    (inside : root ∈ nodes) : (reversePostorder next size root).Nodup :=
  (grows_from_start closed enough inside).nodup_left List.nodup_nil (by simp [Walk.start])

/-- In the reverse post-order every node stands before those of its successors that no path leads
back from. -/
theorem descends_reversePostorder (closed : Closed next nodes) (enough : nodes.length ≤ size)
    (inside : root ∈ nodes) : Walk.Descends next (reversePostorder next size root) :=
  Walk.descends_explore closed inside (Nat.le_trans (unentered_start_le nodes) enough)
    (by simp [Walk.LeadsFromOpen, Walk.start]) trivial

/-- Without cycles every node stands before its successors in the reverse post-order. -/
theorem settled_reversePostorder (closed : Closed next nodes) (acyclic : Acyclic next)
    (enough : nodes.length ≤ size) (inside : root ∈ nodes) :
    Walk.Settled next (reversePostorder next size root) :=
  (descends_reversePostorder closed enough inside).settled acyclic

/-- The root stands first in the reverse post-order. -/
theorem head?_reversePostorder (room : 0 < size) :
    (reversePostorder next size root).head? = some root := by
  obtain ⟨depth, rfl⟩ := Nat.exists_eq_succ_of_ne_zero (Nat.pos_iff_ne_zero.1 room)
  simp [reversePostorder, Walk.explore, Walk.start]

end Reached

end GotoFree
