import GotoFree.Proofs.Answers
import GotoFree.Proofs.Callees
import GotoFree.Proofs.Recast

/-!
# Steps of lowering for the other object model

Lowering for the functional model and for the mutable one goes step by step: both hand out the same
names, flags and numbers, and the functions they have made are recast (`Progress.Recast`). Where a
step for the functional model succeeds, so does the same step for the mutable one (`Lower.Recasts`);
steps in which the model plays no part give the same answer (`Lower.Steady`).
-/

namespace GotoFree

open Target (Script Stmt Expr)

/-- The progress for the functional model and that for the mutable model. -/
structure Progress.Recast (one other : Progress) : Prop where
  agenda : one.agenda = other.agenda
  recorded : one.recorded = other.recorded
  temporaries : one.temporaries = other.temporaries
  warnings : one.warnings = other.warnings
  helpers : List.Forall₂ Target.Function.Recast one.helpers other.helpers

variable {α β γ δ : Type}

/-- Where steps along a list succeed from one start, so do related steps from a related start. -/
theorem exists_foldlM_ok {ε : Type} {Related : α → β → Prop} {step : α → γ → Except ε α}
    {step' : β → γ → Except ε β}
    (steps : ∀ one other item next, Related one other → step one item = .ok next →
      ∃ next', step' other item = .ok next' ∧ Related next next')
    {list : List γ} {one last : α} {other : β} (related : Related one other)
    (made : list.foldlM step one = .ok last) :
    ∃ last', list.foldlM step' other = .ok last' ∧ Related last last' := by
  induction list generalizing one other with
  | nil =>
      cases made
      exact ⟨other, rfl, related⟩
  | cons item rest ih =>
      rw [List.foldlM_cons] at made ⊢
      obtain ⟨next, here, later⟩ := bind_eq_ok_iff.1 made
      obtain ⟨next', there, related⟩ := steps one other item next related here
      rw [there]
      exact ih related later

namespace Lower

/-- Where the one step succeeds the other one does, with a related answer. -/
def Recasts (step : Lower α) (step' : Lower β) (Related : α → β → Prop) : Prop :=
  ∀ one other answer after, one.Recast other → step one = .ok (answer, after) →
    ∃ answer' after', step' other = .ok (answer', after') ∧ Related answer answer' ∧
      after.Recast after'

/-- A step that does not depend on the model. -/
abbrev Steady (step : Lower α) : Prop := Recasts step step Eq

namespace Recasts

variable {Related : α → β → Prop}

theorem pure {value : α} {value' : β} (related : Related value value') :
    Recasts (pure value) (pure value') Related := by
  rintro one other answer after recast ⟨⟩
  exact ⟨value', other, rfl, related, recast⟩

/-- Two steps in a row are alike if both are. -/
theorem bind {first : Lower α} {first' : Lower β} {rest : α → Lower γ} {rest' : β → Lower δ}
    {Later : γ → δ → Prop} (here : Recasts first first' Related)
    (later : ∀ value value', Related value value' → Recasts (rest value) (rest' value') Later) :
    Recasts (first >>= rest) (first' >>= rest') Later := by
  intro one other answer after recast made
  obtain ⟨value, between, begins, goes⟩ := stepped_bind_iff.1 made
  obtain ⟨value', between', begins', related, recast⟩ := here _ _ _ _ recast begins
  obtain ⟨answer', after', goes', isLater, recast⟩ := later _ _ related _ _ _ _ recast goes
  exact ⟨answer', after', stepped_bind_iff.2 ⟨value', between', begins', goes'⟩, isLater, recast⟩

/-- The rest of a step goes on from the same answer. -/
theorem andThen {first : Lower α} {rest : α → Lower γ} {rest' : α → Lower δ}
    {Later : γ → δ → Prop} (here : Steady first)
    (later : ∀ value, Recasts (rest value) (rest' value) Later) :
    Recasts (first >>= rest) (first >>= rest') Later :=
  here.bind fun value _ same => same ▸ later value

/-- Related answers may be related more loosely. -/
theorem imp {step : Lower α} {step' : Lower β} {Weaker : α → β → Prop}
    (recasts : Recasts step step' Related)
    (weaken : ∀ value value', Related value value' → Weaker value value') :
    Recasts step step' Weaker := by
  intro one other answer after recast made
  obtain ⟨answer', after', made', related, recast⟩ := recasts _ _ _ _ recast made
  exact ⟨answer', after', made', weaken _ _ related, recast⟩

/-- What the one step answers may be used for both. -/
theorem yields {step : Lower α} {step' : Lower β} {post : α → Prop}
    (recasts : Recasts step step' Related) (yields : Yields step post) :
    Recasts step step' fun answer answer' => Related answer answer' ∧ post answer := by
  intro one other answer after recast made
  obtain ⟨answer', after', made', related, recast⟩ := recasts _ _ _ _ recast made
  exact ⟨answer', after', made', ⟨related, yields _ _ _ made⟩, recast⟩

theorem reject {reason : Rejection} {step : Lower β} :
    Recasts (reject reason : Lower α) step Related := nofun

theorem throw {failure : Failure} {step : Lower β} :
    Recasts (throw failure : Lower α) step Related := nofun

/-- A check is alike if it finds related values. -/
theorem check {result : Except Rejection α} {result' : Except Rejection β}
    (found : ∀ value, result = .ok value → ∃ value', result' = .ok value' ∧ Related value value') :
    Recasts (check result) (check result') Related := by
  intro one other answer after recast made
  obtain ⟨isOk, rfl⟩ := check_apply_iff.1 made
  obtain ⟨value', isOk', related⟩ := found answer isOk
  exact ⟨value', other, check_apply_iff.2 ⟨isOk', rfl⟩, related, recast⟩

theorem get : Recasts get get Progress.Recast := by
  rintro one other answer after recast ⟨⟩
  exact ⟨other, other, rfl, recast, recast⟩

theorem set {next next' : Progress} (recast : next.Recast next') :
    Recasts (set next) (set next') (Eq : PUnit → PUnit → Prop) := by
  rintro one other answer after - ⟨⟩
  exact ⟨⟨⟩, next', rfl, rfl, recast⟩

/-- A change of related progress is alike. -/
theorem modify {change change' : Progress → Progress}
    (same : ∀ one other : Progress, one.Recast other → (change one).Recast (change' other)) :
    Recasts (modify change) (modify change') (Eq : PUnit → PUnit → Prop) := by
  rintro one other answer after recast ⟨⟩
  exact ⟨⟨⟩, change' other, rfl, rfl, same one other recast⟩

/-- Steps for the values of a list are alike if each of them is. -/
theorem mapM {step : γ → Lower α} {step' : γ → Lower β} {list : List γ}
    (each : ∀ item ∈ list, Recasts (step item) (step' item) Related) :
    Recasts (list.mapM step) (list.mapM step') (List.Forall₂ Related) := by
  induction list with
  | nil => exact pure .nil
  | cons first rest ih =>
      rw [List.mapM_cons, List.mapM_cons]
      refine (each first (by simp)).bind fun value value' here => ?_
      refine (ih fun item member => each item (List.mem_cons_of_mem _ member)).bind ?_
      exact fun values values' later => pure (.cons here later)

end Recasts

namespace Steady

theorem of_eq {step : Lower α} (answer : Progress → α) (next : Progress → Progress)
    (does : ∀ progress, step progress = .ok (answer progress, next progress))
    (same : ∀ one other : Progress, one.Recast other →
      answer one = answer other ∧ (next one).Recast (next other)) : Steady step := by
  intro one other value after recast made
  rw [does, Except.ok.injEq, Prod.mk.injEq] at made
  obtain ⟨rfl, rfl⟩ := made
  obtain ⟨answers, recast⟩ := same one other recast
  exact ⟨_, _, does other, answers, recast⟩

theorem pure (value : α) : Steady (pure value : Lower α) := Recasts.pure rfl

/-- Two steps in a row do the same in both models if both do. -/
theorem bind {first : Lower α} {rest : α → Lower β} (here : Steady first)
    (later : ∀ value, Steady (rest value)) : Steady (first >>= rest) :=
  here.andThen later

theorem check (result : Except Rejection α) : Steady (check result) :=
  Recasts.check fun value isOk => ⟨value, isOk, rfl⟩

theorem rely (result : Except Defect α) : Steady (rely result) := by
  cases result with
  | error => exact .throw
  | ok value => exact pure value

theorem mapM {step : γ → Lower α} {list : List γ} (each : ∀ item, Steady (step item)) :
    Steady (list.mapM step) :=
  (Recasts.mapM fun item _ => each item).imp fun _ _ same => List.forall₂_eq_eq_eq ▸ same

theorem forM {step : γ → Lower PUnit} {list : List γ} (each : ∀ item, Steady (step item)) :
    Steady (list.forM step) := by
  induction list with
  | nil => exact pure _
  | cons first rest ih => exact (each first).bind fun _ => ih

theorem request {id : MethodId} {method : Method} : Steady (request id method) := by
  refine of_eq (fun progress => (progress.agenda.request id method.className method.name).1)
    (fun progress =>
      { progress with agenda := (progress.agenda.request id method.className method.name).2 })
    (fun _ => rfl) fun one other recast => ?_
  rw [recast.agenda]
  exact ⟨rfl, rfl, recast.recorded, recast.temporaries, recast.warnings, recast.helpers⟩

theorem enter {spot : Spot} : Steady (enter spot) := by
  refine of_eq (fun _ => ⟨⟩) (fun progress =>
    { progress with
      agenda := (progress.agenda.unit spot).2
      temporaries := .ofUnit (progress.agenda.unit spot).1 })
    (fun _ => rfl) fun one other recast => ?_
  rw [recast.agenda]
  exact ⟨rfl, rfl, recast.recorded, rfl, recast.warnings, recast.helpers⟩

theorem fresh {stem : String} : Steady (fresh stem) := by
  refine of_eq (fun progress => (progress.temporaries.fresh stem).1)
    (fun progress => { progress with temporaries := (progress.temporaries.fresh stem).2 })
    (fun _ => rfl) fun one other recast => ?_
  rw [recast.temporaries]
  exact ⟨rfl, recast.agenda, recast.recorded, rfl, recast.warnings, recast.helpers⟩

theorem flag {coord : Coord} : Steady (flag coord) := by
  refine of_eq (fun progress => ((progress.recorded.number coord).1 : Int) + 1)
    (fun progress => { progress with recorded := (progress.recorded.number coord).2 })
    (fun _ => rfl) fun one other recast => ?_
  rw [recast.recorded]
  exact ⟨rfl, recast.agenda, rfl, recast.temporaries, recast.warnings, recast.helpers⟩

theorem warn {warning : String} : Steady (warn warning) :=
  .modify fun _ _ recast => ⟨recast.agenda, recast.recorded, recast.temporaries,
    congrArg (· ++ [warning]) recast.warnings, recast.helpers⟩

end Steady

theorem recasts_addHelper {one other : Target.Function} (recast : one.Recast other) :
    Recasts (addHelper one) (addHelper other) Eq :=
  .modify fun _ _ same => ⟨same.agenda, same.recorded, same.temporaries, same.warnings,
    List.rel_append same.helpers (.cons recast .nil)⟩

end Lower

end GotoFree
