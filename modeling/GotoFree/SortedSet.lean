import GotoFree.Key

/-!
# Sorted sets

A finite set of keys, held as its strictly increasing list. The list is the only view: two sets
with the same members are equal (`SortedSet.ext_iff`), and each operation is described by what it
does to membership.
-/

namespace GotoFree

/-- A finite set of keys, listed in increasing order without repetition. -/
structure SortedSet (α : Type) [Key α] where
  /-- The members in increasing order. -/
  toList : List α
  /-- The list is strictly increasing. -/
  sorted : toList.Pairwise fun a b => Key.before a b = true

namespace SortedSet

variable {α : Type} [Key α]

instance [DecidableEq α] : DecidableEq (SortedSet α) := fun s t =>
  decidable_of_iff (s.toList = t.toList)
    ⟨fun same => by cases s; cases t; cases same; rfl, fun same => congrArg toList same⟩

instance : Membership α (SortedSet α) where
  mem s a := a ∈ s.toList

instance [DecidableEq α] (a : α) (s : SortedSet α) : Decidable (a ∈ s) :=
  inferInstanceAs (Decidable (a ∈ s.toList))

theorem mem_toList {a : α} {s : SortedSet α} : a ∈ s.toList ↔ a ∈ s := Iff.rfl

/-- The set without members. -/
def empty : SortedSet α := ⟨[], .nil⟩

instance : EmptyCollection (SortedSet α) := ⟨empty⟩
instance : Inhabited (SortedSet α) := ⟨empty⟩

/-- Puts a key into its place in an increasing list; a key that is there already stays alone. -/
def place (a : α) : List α → List α
  | [] => [a]
  | b :: rest =>
      if Key.before a b then a :: b :: rest
      else if Key.before b a then b :: place a rest
      else b :: rest

theorem mem_place {a x : α} {list : List α} : x ∈ place a list ↔ x = a ∨ x ∈ list := by
  induction list with
  | nil => simp [place]
  | cons b rest ih =>
      unfold place
      split
      · simp
      · split
        · simp only [List.mem_cons, ih]
          constructor <;> rintro (h | h | h) <;> simp [h]
        · next left right =>
            have same : a = b := Key.before_total (by simpa using left) (by simpa using right)
            simp [same]

theorem sorted_place {a : α} {list : List α}
    (sorted : list.Pairwise fun a b => Key.before a b = true) :
    (place a list).Pairwise fun a b => Key.before a b = true := by
  induction sorted with
  | nil => simp [place]
  | @cons b rest least tail ih =>
      unfold place
      split
      · next first =>
          refine .cons (fun x member => ?_) (.cons least tail)
          rcases List.mem_cons.1 member with rfl | member
          · exact first
          · exact Key.before_trans first (least x member)
      · split
        · next last =>
            refine .cons (fun x member => ?_) ih
            rcases mem_place.1 member with rfl | member
            · exact last
            · exact least x member
        · exact .cons least tail

/-- The set with one more member. -/
def insert (s : SortedSet α) (a : α) : SortedSet α := ⟨place a s.toList, sorted_place s.sorted⟩

/-- The members of both sets. -/
def union (s t : SortedSet α) : SortedSet α := t.toList.foldl insert s

/-- The set of the values of a list. -/
def ofList (list : List α) : SortedSet α := list.foldl insert empty

/-- The set with one member. -/
def singleton (a : α) : SortedSet α := ⟨[a], by simp⟩

/-- The members that pass a test. -/
def filter (s : SortedSet α) (keep : α → Bool) : SortedSet α :=
  ⟨s.toList.filter keep, s.sorted.filter keep⟩

/-- Whether a value is a member. -/
def contains [DecidableEq α] (s : SortedSet α) (a : α) : Bool := decide (a ∈ s)

/-- Whether there is no member. -/
def isEmpty (s : SortedSet α) : Bool := s.toList.isEmpty

/-- The number of members. -/
def size (s : SortedSet α) : Nat := s.toList.length

/-- The first member. -/
def min? (s : SortedSet α) : Option α := s.toList.head?

/-- The union of a list of sets. -/
def unionAll (sets : List (SortedSet α)) : SortedSet α := sets.foldl union empty

@[simp] theorem not_mem_empty {a : α} : a ∉ (empty : SortedSet α) := by
  simp [← mem_toList, empty]

@[simp] theorem mem_singleton {a x : α} : x ∈ singleton a ↔ x = a := by
  simp [← mem_toList, singleton]

@[simp] theorem mem_insert {s : SortedSet α} {a x : α} : x ∈ s.insert a ↔ x = a ∨ x ∈ s :=
  mem_place

theorem mem_foldl_insert {list : List α} {s : SortedSet α} {x : α} :
    x ∈ list.foldl insert s ↔ x ∈ s ∨ x ∈ list := by
  induction list generalizing s with
  | nil => simp
  | cons a rest ih =>
      simp only [List.foldl_cons, ih, mem_insert, List.mem_cons]
      constructor
      · rintro ((h | h) | h) <;> simp [h]
      · rintro (h | h | h) <;> simp [h]

@[simp] theorem mem_union {s t : SortedSet α} {x : α} : x ∈ s.union t ↔ x ∈ s ∨ x ∈ t :=
  mem_foldl_insert

@[simp] theorem mem_ofList {list : List α} {x : α} : x ∈ ofList list ↔ x ∈ list := by
  simp [ofList, mem_foldl_insert]

@[simp] theorem mem_filter {s : SortedSet α} {keep : α → Bool} {x : α} :
    x ∈ s.filter keep ↔ x ∈ s ∧ keep x = true :=
  List.mem_filter

@[simp] theorem contains_iff [DecidableEq α] {s : SortedSet α} {a : α} :
    s.contains a = true ↔ a ∈ s := by
  simp [contains]

/-- The list of a set has no repetition. -/
theorem nodup (s : SortedSet α) : s.toList.Nodup :=
  s.sorted.imp fun {a b} first same => by
    subst same
    simp [Key.before_irrefl] at first

theorem mem_foldl_union {sets : List (SortedSet α)} {s : SortedSet α} {x : α} :
    x ∈ sets.foldl union s ↔ x ∈ s ∨ ∃ t ∈ sets, x ∈ t := by
  induction sets generalizing s with
  | nil => simp
  | cons t rest ih => simp [ih, or_assoc]

@[simp] theorem mem_unionAll {sets : List (SortedSet α)} {x : α} :
    x ∈ unionAll sets ↔ ∃ s ∈ sets, x ∈ s := by
  simp [unionAll, mem_foldl_union]

theorem isEmpty_iff {s : SortedSet α} : s.isEmpty = true ↔ ∀ x, x ∉ s := by
  simp only [isEmpty, List.isEmpty_iff, List.eq_nil_iff_forall_not_mem]
  exact Iff.rfl

theorem mem_of_min? {s : SortedSet α} {x : α} (least : s.min? = some x) : x ∈ s :=
  List.mem_of_mem_head? (by simpa [min?] using least)

theorem min?_isSome_iff {s : SortedSet α} : s.min?.isSome = true ↔ ∃ x, x ∈ s := by
  rcases s with ⟨_ | ⟨first, rest⟩, sorted⟩
  · simp [min?, ← mem_toList]
  · simp only [min?, List.head?_cons, Option.isSome_some, true_iff]
    exact ⟨first, List.mem_cons_self⟩

/-- Two increasing lists with the same members are the same list. -/
theorem eq_of_same_members {left right : List α}
    (sortedLeft : left.Pairwise fun a b => Key.before a b = true)
    (sortedRight : right.Pairwise fun a b => Key.before a b = true)
    (same : ∀ x, x ∈ left ↔ x ∈ right) : left = right := by
  induction left generalizing right with
  | nil =>
      cases right with
      | nil => rfl
      | cons b rest => exact absurd ((same b).2 (by simp)) (by simp)
  | cons a rest ih =>
      cases right with
      | nil => exact absurd ((same a).1 (by simp)) (by simp)
      | cons b tail =>
          obtain ⟨leastA, sortedRest⟩ := List.pairwise_cons.1 sortedLeft
          obtain ⟨leastB, sortedTail⟩ := List.pairwise_cons.1 sortedRight
          -- Each head is a member of the other list, so neither stands before the other.
          have heads : a = b := by
            rcases List.mem_cons.1 ((same a).1 (by simp)) with h | inTail
            · exact h
            · rcases List.mem_cons.1 ((same b).2 (by simp)) with h | inRest
              · exact h.symm
              · simpa [Key.before_irrefl] using
                  Key.before_trans (leastA b inRest) (leastB a inTail)
          subst heads
          congr 1
          refine ih sortedRest sortedTail fun x => ?_
          constructor
          · intro member
            rcases List.mem_cons.1 ((same x).1 (by simp [member])) with rfl | h
            · simpa [Key.before_irrefl] using leastA x member
            · exact h
          · intro member
            rcases List.mem_cons.1 ((same x).2 (by simp [member])) with rfl | h
            · simpa [Key.before_irrefl] using leastB x member
            · exact h

@[ext] theorem ext {s t : SortedSet α} (same : ∀ x, x ∈ s ↔ x ∈ t) : s = t := by
  have lists : s.toList = t.toList := eq_of_same_members s.sorted t.sorted same
  cases s; cases t; cases lists; rfl

end SortedSet

end GotoFree
