import GotoFree.SortedMap

/-!
# Containers as values

A sorted set is determined by its members and a sorted map by its look-ups. So neither shows the
order in which it was filled.
-/

namespace GotoFree

namespace SortedSet

variable {α : Type} [Key α]

@[simp] theorem ofList_toList (s : SortedSet α) : ofList s.toList = s := by
  ext x
  simp [mem_toList]

theorem ofList_perm {one other : List α} (perm : one.Perm other) : ofList one = ofList other := by
  ext x
  simp [perm.mem_iff]

end SortedSet

namespace SortedMap

variable {κ ν : Type} [Key κ] [DecidableEq κ]

theorem ext {m n : SortedMap κ ν} (same : ∀ key, m.get? key = n.get? key) : m = n := by
  have distinct (m : SortedMap κ ν) : m.entries.Nodup :=
    List.Pairwise.of_map Prod.fst (fun _ _ differ same => differ (congrArg Prod.fst same))
      m.nodup_keys
  have perm : m.entries.Perm n.entries := by
    refine (List.perm_ext_iff_of_nodup (distinct m) (distinct n)).2 fun (key, value) => ?_
    rw [← get?_eq_some_iff, ← get?_eq_some_iff, same]
  have lists : m.entries = n.entries := by
    refine perm.eq_of_pairwise (fun p q _ _ first second => ?_) m.sorted n.sorted
    rw [Key.before_asymm first] at second
    cases second
  cases m
  cases n
  cases lists
  rfl

@[simp] theorem ofList_entries (m : SortedMap κ ν) : ofList m.entries = m := by
  refine ext fun key => Option.ext fun value => ?_
  exact (get?_ofList m.nodup_keys).trans get?_eq_some_iff.symm

/-- A map of a list without repeated keys does not show the order of the list. -/
theorem ofList_perm {one other : List (κ × ν)} (distinct : (one.map Prod.fst).Nodup)
    (perm : one.Perm other) : ofList one = ofList other := by
  refine ext fun key => Option.ext fun value => ?_
  have others : (other.map Prod.fst).Nodup := (perm.map Prod.fst).nodup_iff.1 distinct
  exact (get?_ofList distinct).trans (perm.mem_iff.trans (get?_ofList others).symm)

end SortedMap

end GotoFree
