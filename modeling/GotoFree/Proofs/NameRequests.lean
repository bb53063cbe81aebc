import GotoFree.Proofs.Agenda
import Mathlib.Data.List.Forall2

/-!
# Requests for names

A method that has no name yet gets the first free one among its plain name and the plain name with
the numbers from 2 on. `Registry.Search` is that search without a bound on the numbers; it ends,
since only finitely many names are in use, and it ends with the name that `Registry.free` chooses
(`Registry.search_iff`). Over any history of requests a method keeps the name that it got first, and
no two methods share one (`Registry.answers_faithful`).
-/

namespace GotoFree

/-- A request for the name of a method. -/
structure NameRequest where
  id : MethodId
  className : String
  name : String
deriving DecidableEq

/-- The name that is tried first. -/
def NameRequest.base (request : NameRequest) : String :=
  sanitized request.className ++ "_" ++ sanitized request.name

namespace Registry

variable {registry next last : Registry} {base name found : String} {number : Nat}
  {request : NameRequest} {requests : List NameRequest} {id : MethodId} {names : List String}

/-! ## The search for a free name -/

/-- While a name is in use, the plain name with a number is tried next, and the number grows. The
search ends with the first name that is not in use. -/
inductive Search (registry : Registry) (base : String) : String → Nat → String → Prop where
  | free {name : String} {number : Nat} (unused : name ∉ registry.used) :
      Search registry base name number name
  | taken {name found : String} {number : Nat} (used : name ∈ registry.used)
      (later : Search registry base (base ++ "_" ++ toString number) (number + 1) found) :
      Search registry base name number found

/-- A search ends with one name only. -/
theorem Search.unique {other : String} (search : registry.Search base name number found)
    (again : registry.Search base name number other) : found = other := by
  induction search with
  | free unused =>
      cases again with
      | free => rfl
      | taken used => exact absurd used unused
  | taken used _ ih =>
      cases again with
      | free unused => exact absurd used unused
      | taken _ later => exact ih later

/-- A name that is found among finitely many candidates is found by the search. -/
theorem search_of_find? {count : Nat}
    (first : (name :: (List.range' number count).map fun n => base ++ "_" ++ toString n).find?
      (fun name => name ∉ registry.used) = some found) :
    registry.Search base name number found := by
  induction count generalizing name number with
  | zero =>
      rw [List.range'_zero, List.map_nil, List.find?_singleton, Option.ite_none_right_eq_some]
        at first
      obtain ⟨unused, same⟩ := first
      cases same
      exact .free (by simpa using unused)
  | succ count ih =>
      by_cases used : name ∈ registry.used
      · refine .taken used (ih ?_)
        rwa [List.find?_cons_of_neg (by simpa using used), List.range'_succ, List.map_cons] at first
      · rw [List.find?_cons_of_pos (by simpa using used), Option.some_inj] at first
        subst first
        exact .free used

/-- The candidates are the plain name and the plain name with the numbers from 2 on. -/
theorem candidates_eq : registry.candidates base =
    base :: (List.range' 2 registry.used.size).map fun n => base ++ "_" ++ toString n := by
  rw [candidates, List.range'_eq_map_range, List.map_map]
  simp only [Function.comp_def, Nat.add_comm]

/-- The search for a name that no other method has ends with the name that is chosen. -/
theorem search_iff : registry.Search base base 2 found ↔ registry.free base = found := by
  have ends : registry.Search base base 2 (registry.free base) := by
    apply search_of_find?
    rw [← candidates_eq]
    cases isFound : (registry.candidates base).find? fun name => name ∉ registry.used with
    | some name => rw [free, isFound, Option.getD_some]
    | none =>
        -- Then the plain name would be in use although it is chosen.
        have all := List.find?_eq_none.1 isFound base List.mem_cons_self
        have chosen : registry.free base = base := by rw [free, isFound, Option.getD_none]
        have fresh : registry.free base ∉ registry.used := free_notMem
        exact absurd (chosen ▸ fresh) (by simpa using all)
  exact ⟨fun search => ends.unique search, fun same => same ▸ ends⟩

/-! ## Requests -/

/-- What becomes of a request. A method that has a name keeps it; otherwise the search for a free
name ends with one, which is the method's name from then on. -/
inductive Serves (registry : Registry) (request : NameRequest) : String → Registry → Prop where
  | known {name : String} (named : registry.names.get? request.id = some name) :
      Serves registry request name registry
  | searched {name : String} (unnamed : registry.names.get? request.id = none)
      (search : registry.Search request.base request.base 2 name) :
      Serves registry request name
        ⟨registry.names.insert request.id name, registry.used.insert name⟩

/-- Requests are served as they are answered. -/
theorem serves_iff : registry.Serves request name next ↔
    registry.nameFor request.id request.className request.name = (name, next) := by
  unfold nameFor
  constructor
  · rintro (named | ⟨unnamed, search⟩)
    · rw [named]
    · rw [unnamed]
      dsimp only
      rw [← NameRequest.base, search_iff.1 search]
  · intro answered
    split at answered
    · next known named =>
      cases answered
      exact .known named
    · next unnamed =>
      cases answered
      exact .searched unnamed (search_iff.2 rfl)

/-- Where every method that has a name has one of its own, and the names of methods are in use. -/
structure Faithful (registry : Registry) : Prop where
  used : ∀ id name, registry.names.get? id = some name → name ∈ registry.used
  apart : ∀ one two name, registry.names.get? one = some name →
    registry.names.get? two = some name → one = two

/-- An empty registry has told all methods apart. -/
theorem faithful_empty : empty.Faithful := ⟨nofun, nofun⟩

/-- A name that is not in use can be given to a method. -/
theorem Faithful.insert (faithful : registry.Faithful) (unused : name ∉ registry.used) :
    Faithful ⟨registry.names.insert id name, registry.used.insert name⟩ := by
  have other {two : MethodId} (differs : id ≠ two) :
      (registry.names.insert id name).get? two = registry.names.get? two := by
    rw [SortedMap.get?_insert, if_neg differs]
  constructor
  · intro two known named
    rw [SortedSet.mem_insert]
    by_cases same : id = two
    · subst same
      rw [SortedMap.get?_insert_self] at named
      exact .inl (Option.some.inj named).symm
    · exact .inr (faithful.used two known (by rwa [other same] at named))
  · intro one two known first second
    by_cases sameOne : id = one <;> by_cases sameTwo : id = two
    · exact sameOne.symm.trans sameTwo
    · subst sameOne
      rw [SortedMap.get?_insert_self] at first
      rw [other sameTwo] at second
      cases first
      exact absurd (faithful.used two _ second) unused
    · subst sameTwo
      rw [SortedMap.get?_insert_self] at second
      rw [other sameOne] at first
      cases second
      exact absurd (faithful.used one _ first) unused
    · rw [other sameOne] at first
      rw [other sameTwo] at second
      exact faithful.apart one two known first second

/-- A request leaves every method with a name of its own. -/
theorem Faithful.nameFor {className : String} (faithful : registry.Faithful) :
    (registry.nameFor id className name).2.Faithful := by
  unfold Registry.nameFor
  split
  · exact faithful
  · exact faithful.insert free_notMem

/-! ## Histories -/

/-- Answers requests one after the other. -/
def answers (registry : Registry) : List NameRequest → List String × Registry
  | [] => ([], registry)
  | request :: rest =>
      let (name, next) := registry.nameFor request.id request.className request.name
      let (names, last) := next.answers rest
      (name :: names, last)

/-- Requests are served one after the other. -/
inductive ServesAll : Registry → List NameRequest → List String → Registry → Prop where
  | nil {registry : Registry} : ServesAll registry [] [] registry
  | cons {registry next last : Registry} {request : NameRequest} {rest : List NameRequest}
      {name : String} {names : List String} (first : registry.Serves request name next)
      (later : ServesAll next rest names last) :
      ServesAll registry (request :: rest) (name :: names) last

/-- Requests are answered one after the other. -/
theorem answers_cons : registry.answers (request :: requests) =
    let served := registry.nameFor request.id request.className request.name
    (served.1 :: (served.2.answers requests).1, (served.2.answers requests).2) :=
  rfl

/-- Every answer is served by the registry after it. -/
theorem servesAll_answers :
    registry.ServesAll requests (registry.answers requests).1 (registry.answers requests).2 := by
  induction requests generalizing registry with
  | nil => exact .nil
  | cons request rest ih => exact .cons (serves_iff.2 rfl) ih

/-- A registry that tells methods apart does so after any requests. -/
theorem Faithful.answers (faithful : registry.Faithful) :
    (registry.answers requests).2.Faithful := by
  induction requests generalizing registry with
  | nil => exact faithful
  | cons request rest ih => exact ih faithful.nameFor

/-- A method keeps its name whatever is requested later. -/
theorem get?_answers_of_known (known : registry.names.get? id = some name) :
    (registry.answers requests).2.names.get? id = some name := by
  induction requests generalizing registry with
  | nil => exact known
  | cons request rest ih => exact ih (get?_nameFor_of_known known)

/-- At the end of a history every method has the name with which each request for it was
answered. -/
theorem forall₂_answers (registry : Registry) (requests : List NameRequest) : List.Forall₂
    (fun request name => (registry.answers requests).2.names.get? request.id = some name)
    requests (registry.answers requests).1 := by
  induction requests generalizing registry with
  | nil => exact .nil
  | cons request rest ih =>
      rw [answers_cons]
      exact .cons (get?_answers_of_known get?_nameFor) (ih _)

/-- In every history of requests each search for a name ends, each request gets one answer, and two
requests get the same answer exactly if they are for the same method. -/
theorem answers_faithful (requests : List NameRequest) :
    ∃ names last, empty.answers requests = (names, last) ∧
      empty.ServesAll requests names last ∧ names.length = requests.length ∧
      ∀ one ∈ requests.zip names, ∀ two ∈ requests.zip names,
        one.1.id = two.1.id ↔ one.2 = two.2 := by
  have named := forall₂_answers empty requests
  refine ⟨_, _, rfl, servesAll_answers, named.length_eq.symm, fun one first two second => ?_⟩
  have nameOne := List.forall₂_zip named first
  have nameTwo := List.forall₂_zip named second
  constructor
  · intro same
    rw [same, nameTwo] at nameOne
    exact (Option.some.inj nameOne).symm
  · intro same
    rw [← same] at nameTwo
    exact faithful_empty.answers.apart _ _ _ nameOne nameTwo

/-- The plain name of the third method is the numbered name of the second one. -/
example : (empty.answers [⟨⟨"A.m"⟩, "A", "m"⟩, ⟨⟨"A.m/1"⟩, "A", "m"⟩, ⟨⟨"A.m_2"⟩, "A", "m_2"⟩,
    ⟨⟨"A.m/1"⟩, "A", "m"⟩]).1 = ["A_m", "A_m_2", "A_m_2_2", "A_m_2"] := by
  decide +kernel

end Registry

end GotoFree
