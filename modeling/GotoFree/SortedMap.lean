import GotoFree.SortedSet

/-!
# Sorted maps

A finite map, held as the list of its entries in increasing order of the keys. Each operation is
described by what it does to look-up (`SortedMap.get?`).
-/

namespace GotoFree

/-- A finite map from keys to values, listed in increasing order of the keys. -/
structure SortedMap (κ ν : Type) [Key κ] where
  /-- The entries in increasing order of their keys. -/
  entries : List (κ × ν)
  /-- The keys are strictly increasing. -/
  sorted : entries.Pairwise fun p q => Key.before p.1 q.1 = true

namespace SortedMap

variable {κ ν μ : Type} [Key κ]

instance [DecidableEq κ] [DecidableEq ν] : DecidableEq (SortedMap κ ν) := fun s t =>
  decidable_of_iff (s.entries = t.entries)
    ⟨fun same => by cases s; cases t; cases same; rfl, fun same => congrArg entries same⟩

/-- The map without entries. -/
def empty : SortedMap κ ν := ⟨[], .nil⟩

instance : EmptyCollection (SortedMap κ ν) := ⟨empty⟩
instance : Inhabited (SortedMap κ ν) := ⟨empty⟩

/-- Puts an entry into its place in an increasing list, in place of one with the same key. -/
def place (key : κ) (value : ν) : List (κ × ν) → List (κ × ν)
  | [] => [(key, value)]
  | entry :: rest =>
      if Key.before key entry.1 then (key, value) :: entry :: rest
      else if Key.before entry.1 key then entry :: place key value rest
      else (key, value) :: rest

theorem mem_place {key : κ} {value : ν} {x : κ × ν} {list : List (κ × ν)}
    (member : x ∈ place key value list) : x = (key, value) ∨ x ∈ list := by
  induction list with
  | nil => exact .inl (by simpa [place] using member)
  | cons entry rest ih =>
      unfold place at member
      split at member
      · simpa using member
      · split at member
        · rcases List.mem_cons.1 member with h | h
          · exact .inr (by simp [h])
          · exact (ih h).imp id (by intro h; simp [h])
        · rcases List.mem_cons.1 member with h | h
          · exact .inl h
          · exact .inr (by simp [h])

theorem sorted_place {key : κ} {value : ν} {list : List (κ × ν)}
    (sorted : list.Pairwise fun p q => Key.before p.1 q.1 = true) :
    (place key value list).Pairwise fun p q => Key.before p.1 q.1 = true := by
  induction sorted with
  | nil => simp [place]
  | @cons entry rest least tail ih =>
      unfold place
      split
      · next first =>
          refine .cons (fun x member => ?_) (.cons least tail)
          rcases List.mem_cons.1 member with rfl | member
          · exact first
          · exact Key.before_trans first (least x member)
      · split
        · next last =>
            refine .cons (fun x member => ?_) ih
            rcases mem_place member with rfl | member
            · exact last
            · exact least x member
        · next first last =>
            have same : key = entry.1 :=
              Key.before_total (by simpa using first) (by simpa using last)
            exact .cons (fun x member => same ▸ least x member) tail

/-- The map with one entry added, or replaced where the key is there already. -/
def insert (m : SortedMap κ ν) (key : κ) (value : ν) : SortedMap κ ν :=
  ⟨place key value m.entries, sorted_place m.sorted⟩

/-- The map of a list of entries; of two entries with one key the later counts. -/
def ofList (list : List (κ × ν)) : SortedMap κ ν :=
  list.foldl (fun m entry => m.insert entry.1 entry.2) empty

/-- The value at a key. -/
def get? [DecidableEq κ] (m : SortedMap κ ν) (key : κ) : Option ν :=
  (m.entries.find? fun entry => entry.1 = key).map Prod.snd

/-- Whether a key has a value. -/
def contains [DecidableEq κ] (m : SortedMap κ ν) (key : κ) : Bool := (m.get? key).isSome

/-- The map without the entry at a key. -/
def erase [DecidableEq κ] (m : SortedMap κ ν) (key : κ) : SortedMap κ ν :=
  ⟨m.entries.filter fun entry => entry.1 ≠ key, m.sorted.filter _⟩

/-- The map with every value changed by one function. -/
def mapValues (m : SortedMap κ ν) (change : ν → μ) : SortedMap κ μ :=
  ⟨m.entries.map fun entry => (entry.1, change entry.2),
    List.pairwise_map.2 m.sorted⟩

/-- The keys in increasing order. -/
def keys (m : SortedMap κ ν) : List κ := m.entries.map Prod.fst

/-- The values in the order of their keys. -/
def values (m : SortedMap κ ν) : List ν := m.entries.map Prod.snd

/-- Whether there is no entry. -/
def isEmpty (m : SortedMap κ ν) : Bool := m.entries.isEmpty

/-- The number of entries. -/
def size (m : SortedMap κ ν) : Nat := m.entries.length

/-- The entries of both maps; where both have a key, the second one counts. -/
def union (m n : SortedMap κ ν) : SortedMap κ ν :=
  n.entries.foldl (fun m entry => m.insert entry.1 entry.2) m

/-- No key is listed twice. -/
theorem nodup_keys (m : SortedMap κ ν) : m.keys.Nodup :=
  List.pairwise_map.2 (m.sorted.imp fun {p q} first same => by
    simp [same, Key.before_irrefl] at first)

omit [Key κ] in
/-- A list without repeated keys has one entry for each key. -/
theorem eq_of_same_key {list : List (κ × ν)} (distinct : (list.map Prod.fst).Nodup)
    {p q : κ × ν} (left : p ∈ list) (right : q ∈ list) (same : p.1 = q.1) : p = q :=
  List.Pairwise.forall_of_forall_of_flip (R := fun p q : κ × ν => p.1 = q.1 → p = q)
    (fun _ _ _ => rfl)
    ((List.pairwise_map.1 distinct).imp fun differ agree => absurd agree differ)
    ((List.pairwise_map.1 distinct).imp fun differ agree => absurd agree.symm differ)
    left right same

section Lookup

variable [DecidableEq κ]

@[simp] theorem get?_empty {key : κ} : (empty : SortedMap κ ν).get? key = none := rfl

theorem find?_place {key other : κ} {value : ν} {list : List (κ × ν)} :
    (place key value list).find? (fun entry => entry.1 = other) =
      if key = other then some (key, value) else list.find? (fun entry => entry.1 = other) := by
  induction list with
  | nil =>
      by_cases same : key = other <;> simp [place, same]
  | cons entry rest ih =>
      unfold place
      split
      · by_cases same : key = other <;> simp [same]
      · split
        · next last =>
            simp only [List.find?_cons]
            by_cases here : entry.1 = other
            · have distinct : key ≠ other := by
                rintro rfl
                rw [here, Key.before_irrefl] at last
                exact absurd last (by simp)
              simp [here, distinct]
            · simp [here, ih]
        · next first last =>
            have agree : key = entry.1 :=
              Key.before_total (by simpa using first) (by simpa using last)
            by_cases same : key = other
            · simp [same]
            · simp [← agree, same]

theorem get?_insert {m : SortedMap κ ν} {key other : κ} {value : ν} :
    (m.insert key value).get? other = if key = other then some value else m.get? other := by
  unfold get? insert
  rw [find?_place]
  by_cases same : key = other <;> simp [same]

@[simp] theorem get?_insert_self {m : SortedMap κ ν} {key : κ} {value : ν} :
    (m.insert key value).get? key = some value := by
  simp [get?_insert]

theorem get?_erase {m : SortedMap κ ν} {key other : κ} :
    (m.erase key).get? other = if key = other then none else m.get? other := by
  unfold get? erase
  rw [List.find?_filter]
  by_cases same : key = other
  · subst same
    simp
  · have agree : (fun entry : κ × ν =>
        decide (decide (entry.1 ≠ key) = true ∧ decide (entry.1 = other) = true)) =
        fun entry => decide (entry.1 = other) := by
      funext entry
      by_cases here : entry.1 = other
      · simp [here, Ne.symm same]
      · simp [here]
    simp only [same, if_false]
    rw [agree]

theorem get?_mapValues {m : SortedMap κ ν} {change : ν → μ} {key : κ} :
    (m.mapValues change).get? key = (m.get? key).map change := by
  unfold get? mapValues
  rw [List.find?_map, Option.map_map, Option.map_map]
  rfl

theorem get?_eq_some_iff {m : SortedMap κ ν} {key : κ} {value : ν} :
    m.get? key = some value ↔ (key, value) ∈ m.entries := by
  unfold get?
  constructor
  · intro found
    obtain ⟨entry, here, rfl⟩ := Option.map_eq_some_iff.1 found
    have same := List.find?_some here
    simp only [decide_eq_true_eq] at same
    subst same
    exact List.mem_of_find?_eq_some here
  · intro member
    cases found : m.entries.find? fun entry => entry.1 = key with
    | none => simpa using List.find?_eq_none.1 found _ member
    | some entry =>
        have same : entry.1 = key := by simpa using List.find?_some found
        have entries := eq_of_same_key m.nodup_keys (List.mem_of_find?_eq_some found) member same
        simp [entries]

theorem get?_eq_none_iff {m : SortedMap κ ν} {key : κ} :
    m.get? key = none ↔ key ∉ m.keys := by
  simp only [get?, keys, Option.map_eq_none_iff, List.find?_eq_none, decide_eq_true_eq,
    List.mem_map, not_exists, not_and]

theorem mem_keys_iff {m : SortedMap κ ν} {key : κ} :
    key ∈ m.keys ↔ ∃ value, m.get? key = some value := by
  constructor
  · intro member
    cases found : m.get? key with
    | none => exact absurd member (get?_eq_none_iff.1 found)
    | some value => exact ⟨value, rfl⟩
  · rintro ⟨value, found⟩
    exact List.mem_map.2 ⟨_, get?_eq_some_iff.1 found, rfl⟩

theorem mem_values_iff {m : SortedMap κ ν} {value : ν} :
    value ∈ m.values ↔ ∃ key, m.get? key = some value := by
  simp [values, get?_eq_some_iff]

theorem get?_foldl_insert {list : List (κ × ν)} {m : SortedMap κ ν} {key : κ} :
    (list.foldl (fun m entry => m.insert entry.1 entry.2) m).get? key =
      ((list.reverse.find? fun entry => entry.1 = key).map Prod.snd).or (m.get? key) := by
  induction list generalizing m with
  | nil => simp
  | cons entry rest ih =>
      rw [List.foldl_cons, ih, get?_insert, List.reverse_cons, List.find?_append]
      cases (rest.reverse.find? fun entry => entry.1 = key) with
      | some later => simp
      | none => by_cases same : entry.1 = key <;> simp [same]

theorem get?_union {m n : SortedMap κ ν} {key : κ} :
    (m.union n).get? key = (n.get? key).or (m.get? key) := by
  unfold union
  rw [get?_foldl_insert]
  congr 1
  cases found : n.get? key with
  | none =>
      simp only [get?_eq_none_iff, keys, List.mem_map, not_exists, not_and] at found
      simp only [Option.map_eq_none_iff, List.find?_eq_none, List.mem_reverse, decide_eq_true_eq]
      exact found
  | some value =>
      have member := get?_eq_some_iff.1 found
      cases last : n.entries.reverse.find? fun entry => entry.1 = key with
      | none => simpa using List.find?_eq_none.1 last _ (List.mem_reverse.2 member)
      | some entry =>
          have same : entry.1 = key := by simpa using List.find?_some last
          have among := List.mem_reverse.1 (List.mem_of_find?_eq_some last)
          rw [← same] at found
          have here := get?_eq_some_iff.2 (show (entry.1, entry.2) ∈ n.entries from among)
          rw [found] at here
          simpa using here.symm

/-- A map made of a list without repeated keys has the entries of the list. -/
theorem get?_ofList {list : List (κ × ν)} (distinct : (list.map Prod.fst).Nodup) {key : κ}
    {value : ν} : (ofList list).get? key = some value ↔ (key, value) ∈ list := by
  unfold ofList
  rw [get?_foldl_insert]
  simp only [get?_empty, Option.or_none, Option.map_eq_some_iff]
  constructor
  · rintro ⟨entry, found, rfl⟩
    have same : entry.1 = key := by simpa using List.find?_some found
    subst same
    exact List.mem_reverse.1 (List.mem_of_find?_eq_some found)
  · intro member
    cases found : list.reverse.find? fun entry => entry.1 = key with
    | none => simpa using List.find?_eq_none.1 found _ (List.mem_reverse.2 member)
    | some entry =>
        have same : entry.1 = key := by simpa using List.find?_some found
        have among := List.mem_reverse.1 (List.mem_of_find?_eq_some found)
        refine ⟨entry, rfl, ?_⟩
        have entries := eq_of_same_key distinct among member same
        simp [entries]

end Lookup

end SortedMap

end GotoFree
