import Mathlib.Data.List.Forall2

/-!
# Steps that may fail

How a step made of several ones succeeds: each of them does (`bind_eq_ok_iff`), and the same for
the steps along a list.
-/

namespace GotoFree

universe u

variable {ε : Type} {α β : Type u}

@[simp] theorem ok_bind (value : α) (rest : α → Except ε β) : (.ok value >>= rest) = rest value :=
  rfl

@[simp] theorem error_bind (error : ε) (rest : α → Except ε β) :
    (.error error >>= rest) = .error error :=
  rfl

@[simp] theorem pure_eq_ok (value : α) : (pure value : Except ε α) = .ok value := rfl

@[simp] theorem throw_eq_error (error : ε) : (throw error : Except ε α) = .error error := rfl

theorem bind_eq_ok_iff {first : Except ε α} {rest : α → Except ε β} {result : β} :
    (first >>= rest) = .ok result ↔ ∃ value, first = .ok value ∧ rest value = .ok result := by
  cases first with
  | error => simp
  | ok => simp

theorem eq_ok_of_toOption {result : Except ε α} {value : α} (found : result.toOption = some value) :
    result = .ok value := by
  cases result with
  | error => cases found
  | ok other => exact congrArg Except.ok (Option.some.inj found)

theorem eq_error_of_map {result : Except ε α} {change : α → β} {error : ε}
    (failed : result.map change = .error error) : result = .error error := by
  cases result with
  | ok => cases failed
  | error other => exact congrArg _ (Except.error.inj failed)

/-- A step along a list succeeds with the results of its steps, in their order. -/
theorem mapM_eq_ok_iff {step : α → Except ε β} {list : List α} {results : List β} :
    list.mapM step = .ok results ↔ List.Forall₂ (fun a b => step a = .ok b) list results := by
  induction list generalizing results with
  | nil => simp [eq_comm]
  | cons first rest ih =>
      simp only [List.mapM_cons, bind_eq_ok_iff, ih, pure_eq_ok, Except.ok.injEq,
        List.forall₂_cons_left_iff]
      constructor
      · rintro ⟨value, here, others, later, rfl⟩
        exact ⟨value, others, here, later, rfl⟩
      · rintro ⟨value, others, here, later, rfl⟩
        exact ⟨value, here, others, later, rfl⟩

theorem exists_mapM_ok {step : α → Except ε β} {list : List α} {made : α → β → Prop}
    (steps : ∀ a ∈ list, ∃ b, step a = .ok b ∧ made a b) :
    ∃ results, list.mapM step = .ok results ∧ List.Forall₂ made list results := by
  induction list with
  | nil => exact ⟨[], rfl, .nil⟩
  | cons first rest ih =>
      obtain ⟨value, here, isMade⟩ := steps first (by simp)
      obtain ⟨others, later, areMade⟩ := ih fun a member => steps a (List.mem_cons_of_mem _ member)
      exact ⟨value :: others, by simp [here, later], .cons isMade areMade⟩

variable {γ δ : Type} {Related : γ → δ → Prop} {left : List γ} {right : List δ}

theorem exists_of_mem_left (related : List.Forall₂ Related left right) {a : γ}
    (member : a ∈ left) : ∃ b ∈ right, Related a b := by
  induction related with
  | nil => cases member
  | cons here _ ih =>
      rcases List.mem_cons.1 member with rfl | member
      · exact ⟨_, List.mem_cons_self, here⟩
      · obtain ⟨b, among, found⟩ := ih member
        exact ⟨b, List.mem_cons_of_mem _ among, found⟩

/-- What holds of related values in pairs goes over to the other list. -/
theorem pairwise_of_forall₂ (related : List.Forall₂ Related left right) {first : γ → γ → Prop}
    {second : δ → δ → Prop} (pairs : left.Pairwise first)
    (goes : ∀ a b c d, Related a b → Related c d → first a c → second b d) :
    right.Pairwise second := by
  induction related with
  | nil => exact .nil
  | cons here others ih =>
      obtain ⟨now, later⟩ := List.pairwise_cons.1 pairs
      refine .cons (fun d member => ?_) (ih later)
      obtain ⟨c, among, there⟩ := exists_of_mem_left others.flip member
      exact goes _ _ c d here there (now c among)

theorem exists_of_mem_right (related : List.Forall₂ Related left right) {b : δ}
    (member : b ∈ right) : ∃ a ∈ left, Related a b :=
  exists_of_mem_left related.flip member

/-- Of a list in which no two places share a property, one value at most has it. -/
theorem eq_of_pairwise_not {list : List γ} {holds : γ → Prop}
    (apart : list.Pairwise fun first second => holds first → ¬ holds second) {first second : γ}
    (left : first ∈ list) (right : second ∈ list) (one : holds first) (two : holds second) :
    first = second :=
  List.Pairwise.forall_of_forall_of_flip
    (R := fun first second => holds first → holds second → first = second)
    (fun _ _ _ _ => rfl)
    (apart.imp fun apart here there => absurd there (apart here))
    (apart.imp fun apart there here => absurd there (apart here)) left right one two

end GotoFree
