import GotoFree.Lowering
import GotoFree.Proofs.Check

/-!
# What the steps of lowering answer

A step that begins with another one succeeds if both do (`stepped_bind_iff`). What a step answers
and which functions it makes is described from the progress after it (`Lower.Gives`). For the flags
and names of a method that is the progress at its end, since nothing of what is handed out is ever
taken back (`Progress.UpTo`). Most steps make no functions (`Lower.Answers`). Some steps succeed
whatever was lowered before them (`Lower.Succeeds`).
-/

namespace GotoFree

section Stateful

variable {σ ε α β : Type}

/-- Two steps in a row, from a state. -/
theorem bind_apply {first : StateT σ (Except ε) α} {rest : α → StateT σ (Except ε) β} {state : σ} :
    (first >>= rest) state = first state >>= fun answer => rest answer.1 answer.2 :=
  rfl

@[simp] theorem pure_apply {value : α} {state : σ} :
    (pure value : StateT σ (Except ε) α) state = .ok (value, state) :=
  rfl

@[simp] theorem throw_apply {error : ε} {state : σ} :
    (throw error : StateT σ (Except ε) α) state = .error error :=
  rfl

@[simp] theorem get_apply {state : σ} :
    (get : StateT σ (Except ε) σ) state = .ok (state, state) :=
  rfl

@[simp] theorem set_apply {state next : σ} :
    (set next : StateT σ (Except ε) PUnit) state = .ok (⟨⟩, next) :=
  rfl

@[simp] theorem modify_apply {change : σ → σ} {state : σ} :
    (modify change : StateT σ (Except ε) PUnit) state = .ok (⟨⟩, change state) :=
  rfl

/-- Two steps in a row succeed if the first does and the second one does after it. -/
theorem stepped_bind_iff {first : StateT σ (Except ε) α} {rest : α → StateT σ (Except ε) β}
    {state : σ} {result : β × σ} : (first >>= rest) state = .ok result ↔
      ∃ value middle, first state = .ok (value, middle) ∧ rest value middle = .ok result := by
  rw [bind_apply]
  exact bind_eq_ok_iff.trans Prod.exists

end Stateful

/-! ## Up to the end of a method -/

/-- What has been handed out so far is still there later. -/
structure Progress.UpTo (progress final : Progress) : Prop where
  names : ∀ id name, progress.agenda.registry.names.get? id = some name →
    final.agenda.registry.names.get? id = some name
  recorded : progress.recorded.order <+: final.recorded.order
  helpers : progress.helpers <+: final.helpers

namespace Registry

variable {registry : Registry} {id other : MethodId} {className name chosen : String}

/-- The name of a method is kept. -/
theorem get?_nameFor :
    (registry.nameFor id className name).2.names.get? id =
      some (registry.nameFor id className name).1 := by
  unfold nameFor
  split
  · assumption
  · exact SortedMap.get?_insert_self

/-- A method that has a name keeps it while another one gets its name. -/
theorem get?_nameFor_of_known (known : registry.names.get? other = some chosen) :
    (registry.nameFor id className name).2.names.get? other = some chosen := by
  unfold nameFor
  split
  · exact known
  · next unknown =>
    rw [SortedMap.get?_insert, if_neg]
    · exact known
    · rintro rfl
      cases unknown.symm.trans known

end Registry

namespace Agenda

variable {agenda : Agenda} {id : MethodId} {className name : String}

/-- The agenda gives names as its registry does. -/
theorem registry_request :
    (agenda.request id className name).2.registry =
      (agenda.registry.nameFor id className name).2 := by
  unfold request
  dsimp only
  split <;> rfl

theorem name_request :
    (agenda.request id className name).1 = (agenda.registry.nameFor id className name).1 := by
  unfold request
  dsimp only
  split <;> rfl

end Agenda

namespace Lower

variable {α β : Type} {fine : Progress → Prop} {final : Progress}

/-- A check succeeds with what it has checked, and leaves the progress as it is. -/
theorem check_apply_iff {result : Except Rejection α} {progress after : Progress} {value : α} :
    check result progress = .ok (value, after) ↔ result = .ok value ∧ after = progress := by
  cases result with
  | error reason => exact iff_of_false nofun nofun
  | ok found => simp [check, eq_comm]

@[simp] theorem liftM_ok {value : α} :
    (liftM (Except.ok value : Except Rejection α) : Lower α) = pure value :=
  rfl

/-- What a step answers and which functions it makes, if the progress after it is as it should be;
the progress before it is so too. -/
def Gives (fine : Progress → Prop) (step : Lower α) (post : α → List Target.Function → Prop) :
    Prop :=
  ∀ progress answer after, step progress = .ok (answer, after) → fine after →
    fine progress ∧ ∃ made, after.helpers = progress.helpers ++ made ∧ post answer made

/-- What a step answers if it succeeds. -/
def Yields (step : Lower α) (post : α → Prop) : Prop :=
  ∀ progress answer after, step progress = .ok (answer, after) → post answer

/-- What a step answers that makes no functions, if the progress after it is as it should be. -/
def Answers (fine : Progress → Prop) (step : Lower α) (post : α → Prop) : Prop :=
  Gives fine step fun answer made => made = [] ∧ post answer

namespace Gives

theorem pure {value : α} {post : α → List Target.Function → Prop} (here : post value []) :
    Gives fine (pure value : Lower α) post := by
  rintro progress answer after ⟨⟩ upTo
  exact ⟨upTo, [], (List.append_nil _).symm, here⟩

/-- What the first part of a step has answered and made is known where the rest answers. The rest
may rely on what the first part answers anyway. -/
theorem bind_yields {first : Lower α} {rest : α → Lower β} {known : α → Prop}
    {middle : α → List Target.Function → Prop} {post : β → List Target.Function → Prop}
    (yields : Yields first known) (one : Gives fine first middle)
    (other : ∀ value, known value → Gives fine (rest value) fun answer more =>
      ∀ made, middle value made → post answer (made ++ more)) :
    Gives fine (first >>= rest) post := by
  intro progress answer after succeeds upTo
  obtain ⟨value, between, here, later⟩ := stepped_bind_iff.1 succeeds
  obtain ⟨upToBetween, more, last, goes⟩ :=
    other value (yields progress value between here) between answer after later upTo
  obtain ⟨upToStart, made, isMiddle, found⟩ := one progress value between here upToBetween
  exact ⟨upToStart, made ++ more, by rw [last, isMiddle, List.append_assoc], goes made found⟩

/-- What the first part has answered is known of the rest. -/
theorem bind {first : Lower α} {rest : α → Lower β} {middle : α → List Target.Function → Prop}
    {post : β → List Target.Function → Prop} (one : Gives fine first middle)
    (other : ∀ value, Gives fine (rest value) fun answer more =>
      ∀ made, middle value made → post answer (made ++ more)) :
    Gives fine (first >>= rest) post :=
  one.bind_yields (fun _ _ _ _ => trivial) fun value (_ : True) => other value

/-- What is known may be weakened. -/
theorem imp {step : Lower α} {post weaker : α → List Target.Function → Prop}
    (gives : Gives fine step post) (weaken : ∀ answer made, post answer made → weaker answer made) :
    Gives fine step weaker := by
  intro progress answer after succeeds upTo
  obtain ⟨upToStart, made, last, found⟩ := gives progress answer after succeeds upTo
  exact ⟨upToStart, made, last, weaken answer made found⟩

theorem reject {reason : Rejection} {post : α → List Target.Function → Prop} :
    Gives fine (reject reason : Lower α) post :=
  nofun

theorem addHelper {function : Target.Function} :
    Gives (·.UpTo final) (addHelper function) fun _ made => made = [function] := by
  rintro progress answer after ⟨⟩ upTo
  exact ⟨⟨upTo.names, upTo.recorded, (List.prefix_append _ _).trans upTo.helpers⟩, _, rfl, rfl⟩

/-- What a check has answered is known where the rest answers. -/
theorem check_bind {result : Except Rejection α} {rest : α → Lower β}
    {post : β → List Target.Function → Prop}
    (other : ∀ value, result = .ok value → Gives fine (rest value) post) :
    Gives fine (check result >>= rest) post := by
  intro progress answer after succeeds upTo
  obtain ⟨value, between, here, later⟩ := stepped_bind_iff.1 succeeds
  obtain ⟨found, rfl⟩ := check_apply_iff.1 here
  exact other value found _ _ _ later upTo

end Gives

namespace Answers

theorem pure {value : α} {post : α → Prop} (here : post value) :
    Answers fine (pure value : Lower α) post :=
  Gives.pure ⟨rfl, here⟩

/-- What the first part of a step has answered is known where the rest answers. -/
theorem bind {first : Lower α} {rest : α → Lower β} {known : α → Prop}
    {post : β → List Target.Function → Prop} (one : Answers fine first known)
    (other : ∀ value, Gives fine (rest value) fun answer made => known value → post answer made) :
    Gives fine (first >>= rest) post := by
  refine Gives.bind one fun value => (other value).imp fun answer more goes made found => ?_
  obtain ⟨rfl, found⟩ := found
  exact goes found

/-- What two parts without functions answer. -/
theorem andThen {first : Lower α} {rest : α → Lower β} {known : α → Prop} {post : β → Prop}
    (one : Answers fine first known)
    (other : ∀ value, Answers fine (rest value) fun answer => known value → post answer) :
    Answers fine (first >>= rest) post :=
  one.bind fun value => (other value).imp fun _ _ found here => ⟨found.1, found.2 here⟩

/-- A first part whose answer does not matter. -/
theorem skip {first : Lower α} {rest : α → Lower β} {post : β → List Target.Function → Prop}
    (one : Answers fine first fun _ => True) (other : ∀ value, Gives fine (rest value) post) :
    Gives fine (first >>= rest) post :=
  one.bind fun value => (other value).imp fun _ _ found _ => found

theorem imp {step : Lower α} {post weaker : α → Prop} (answers : Answers fine step post)
    (weaken : ∀ answer, post answer → weaker answer) : Answers fine step weaker :=
  Gives.imp answers fun answer _ found => ⟨found.1, weaken answer found.2⟩

theorem throw {failure : Failure} {post : α → Prop} :
    Answers fine (throw failure : Lower α) post :=
  nofun

theorem reject {reason : Rejection} {post : α → Prop} :
    Answers fine (reject reason : Lower α) post :=
  nofun

theorem check {result : Except Rejection α} {post : α → Prop}
    (found : ∀ value, result = .ok value → post value) : Answers fine (check result) post := by
  cases result with
  | ok value => exact pure (found value rfl)
  | error reason => exact reject

/-- A step that changes the progress and answers in a known way. -/
theorem of_eq {step : Lower α} {post : α → Prop} (answer : Progress → α)
    (next : Progress → Progress)
    (does : ∀ progress, step progress = .ok (answer progress, next progress))
    (same : ∀ progress, (next progress).helpers = progress.helpers)
    (later : ∀ progress, fine (next progress) → fine progress ∧ post (answer progress)) :
    Answers fine step post := by
  intro progress value after succeeds upTo
  rw [does, Except.ok.injEq, Prod.mk.injEq] at succeeds
  obtain ⟨rfl, rfl⟩ := succeeds
  obtain ⟨upToStart, found⟩ := later progress upTo
  exact ⟨upToStart, [], by rw [same, List.append_nil], rfl, found⟩

theorem enter {spot : Spot} : Answers (·.UpTo final) (enter spot) fun _ => True :=
  of_eq _ _ (fun _ => rfl) (fun _ => rfl) fun _ upTo =>
    ⟨⟨upTo.names, upTo.recorded, upTo.helpers⟩, trivial⟩

/-- The flag of a coordinate is its position among those that are recorded in the end. -/
theorem flag {coord : Coord} : Answers (·.UpTo final) (flag coord) fun number =>
    coord ∈ final.recorded.order ∧ number = final.recorded.order.idxOf coord + 1 := by
  refine of_eq (fun progress => ((progress.recorded.number coord).1 : Int) + 1)
    (fun progress => { progress with recorded := (progress.recorded.number coord).2 })
    (fun _ => rfl) (fun _ => rfl) fun progress upTo => ?_
  obtain ⟨more, same⟩ := upTo.recorded
  dsimp only at same
  rw [Numbering.order_number] at same
  have number : (progress.recorded.number coord).1 = final.recorded.order.idxOf coord ∧
      coord ∈ final.recorded.order ∧ progress.recorded.order <+: final.recorded.order := by
    unfold Numbering.number
    split at same
    · next known =>
      rw [if_pos known, ← same, List.idxOf_append_of_mem known]
      exact ⟨rfl, List.mem_append_left _ known, List.prefix_append _ _⟩
    · next fresh =>
      rw [if_neg fresh, ← same, List.append_assoc, List.idxOf_append_of_notMem fresh]
      exact ⟨by simp, by simp, List.prefix_append _ _⟩
  exact ⟨⟨upTo.names, number.2.2, upTo.helpers⟩, number.2.1, by rw [number.1]⟩

/-- The steps for the values of a list answer for each of them. -/
theorem mapM {step : α → Lower β} {list : List α} {post : α → β → Prop}
    (each : ∀ a ∈ list, Answers fine (step a) (post a)) :
    Answers fine (list.mapM step) (List.Forall₂ post list) := by
  induction list with
  | nil => exact pure .nil
  | cons first rest ih =>
      rw [List.mapM_cons]
      refine (each first (by simp)).andThen fun value => ?_
      refine (ih fun a member => each a (List.mem_cons_of_mem _ member)).andThen fun values => ?_
      exact pure fun others here => .cons here others

end Answers

/-! ## Steps from any progress -/

namespace Yields

theorem pure {value : α} {post : α → Prop} (here : post value) :
    Yields (pure value : Lower α) post := by
  rintro progress answer after ⟨⟩
  exact here

theorem bind {first : Lower α} {rest : α → Lower β} {known : α → Prop} {post : β → Prop}
    (one : Yields first known) (other : ∀ value, known value → Yields (rest value) post) :
    Yields (first >>= rest) post := by
  intro progress answer after made
  obtain ⟨value, between, here, later⟩ := stepped_bind_iff.1 made
  exact other value (one _ _ _ here) _ _ _ later

/-- Nothing need be known of an answer. -/
theorem any {step : Lower α} : Yields step fun _ => True :=
  fun _ _ _ _ => trivial

/-- A first part whose answer does not matter. -/
theorem skip {first : Lower α} {rest : α → Lower β} {post : β → Prop}
    (other : ∀ value, Yields (rest value) post) : Yields (first >>= rest) post :=
  any.bind fun value _ => other value

theorem imp {step : Lower α} {post weaker : α → Prop} (yields : Yields step post)
    (weaken : ∀ answer, post answer → weaker answer) : Yields step weaker :=
  fun progress answer after made => weaken answer (yields progress answer after made)

theorem reject {reason : Rejection} {post : α → Prop} : Yields (reject reason : Lower α) post :=
  nofun

/-- A check answers what it has checked. -/
theorem check {result : Except Rejection α} :
    Yields (check result) fun value => result = .ok value :=
  fun _ _ _ made => (check_apply_iff.1 made).1

end Yields

/-- A temporary is named after its stem. -/
theorem yields_fresh {stem : String} :
    Yields (fresh stem) fun name => ∃ ending, name = stem ++ "_" ++ ending := by
  rintro progress answer after ⟨⟩
  split
  · exact ⟨_, rfl⟩
  · refine ⟨toString progress.temporaries.unit ++ "_" ++
      toString ((progress.temporaries.issued.get? stem).getD 0), ?_⟩
    simp only [String.append_assoc]

/-! ## Steps that always succeed -/

/-- A step that always succeeds, with answers of a kind. -/
def Succeeds (step : Lower α) (known : α → Prop) : Prop :=
  ∀ progress, ∃ answer after, step progress = .ok (answer, after) ∧ known answer

namespace Succeeds

theorem pure {value : α} {known : α → Prop} (here : known value) :
    Succeeds (pure value : Lower α) known :=
  fun progress => ⟨value, progress, rfl, here⟩

/-- A step in two parts succeeds if the second part does after whatever the first one answers. -/
theorem bind {first : Lower α} {rest : α → Lower β} {known : α → Prop} {later : β → Prop}
    (one : Succeeds first known) (other : ∀ value, known value → Succeeds (rest value) later) :
    Succeeds (first >>= rest) later := by
  intro progress
  obtain ⟨value, between, here, isKnown⟩ := one progress
  obtain ⟨answer, after, goes, isLater⟩ := other value isKnown between
  exact ⟨answer, after, stepped_bind_iff.2 ⟨value, between, here, goes⟩, isLater⟩

theorem imp {step : Lower α} {known weaker : α → Prop} (succeeds : Succeeds step known)
    (weaken : ∀ answer, known answer → weaker answer) : Succeeds step weaker := by
  intro progress
  obtain ⟨answer, after, here, isKnown⟩ := succeeds progress
  exact ⟨answer, after, here, weaken answer isKnown⟩

theorem check {result : Except Rejection α} {known : α → Prop} {value : α}
    (made : result = .ok value) (here : known value) : Succeeds (check result) known :=
  made ▸ pure here

theorem enter {spot : Spot} : Succeeds (enter spot) fun _ => True :=
  fun _ => ⟨_, _, rfl, trivial⟩

theorem flag {coord : Coord} : Succeeds (flag coord) fun _ => True :=
  fun _ => ⟨_, _, rfl, trivial⟩

theorem warn {warning : String} : Succeeds (warn warning) fun _ => True :=
  fun _ => ⟨_, _, rfl, trivial⟩

theorem addHelper {function : Target.Function} : Succeeds (addHelper function) fun _ => True :=
  fun _ => ⟨_, _, rfl, trivial⟩

theorem request {id : MethodId} {method : Method} : Succeeds (request id method) fun _ => True :=
  fun _ => ⟨_, _, rfl, trivial⟩

theorem get : Succeeds (get : Lower Progress) fun _ => True :=
  fun _ => ⟨_, _, rfl, trivial⟩

theorem modify {change : Progress → Progress} :
    Succeeds (modify change : Lower PUnit) fun _ => True :=
  fun _ => ⟨_, _, rfl, trivial⟩

theorem forM {step : α → Lower PUnit} {list : List α}
    (each : ∀ a ∈ list, Succeeds (step a) fun _ => True) :
    Succeeds (list.forM step) fun _ => True := by
  induction list with
  | nil => exact pure trivial
  | cons first rest ih =>
      exact (each first (by simp)).bind fun _ _ =>
        ih fun a member => each a (List.mem_cons_of_mem _ member)

theorem mapM {step : α → Lower β} {list : List α}
    (each : ∀ a ∈ list, Succeeds (step a) fun _ => True) :
    Succeeds (list.mapM step) fun values => values.length = list.length := by
  induction list with
  | nil => exact pure rfl
  | cons first rest ih =>
      rw [List.mapM_cons]
      refine (each first (by simp)).bind fun value _ => ?_
      refine (ih fun a member => each a (List.mem_cons_of_mem _ member)).bind fun values same => ?_
      exact pure (by simp [same])

end Succeeds

/-- What a step answers anyway is known with what it gives. -/
theorem Gives.also {α : Type} {fine : Progress → Prop} {step : Lower α}
    {post : α → List Target.Function → Prop} {known : α → Prop} (gives : Gives fine step post)
    (yields : Yields step known) :
    Gives fine step fun answer made => post answer made ∧ known answer := by
  intro progress answer after ran isFine
  obtain ⟨wasFine, made, helpers, found⟩ := gives progress answer after ran isFine
  exact ⟨wasFine, made, helpers, found, yields progress answer after ran⟩

theorem Succeeds.yields {step : Lower α} {known : α → Prop} (succeeds : Succeeds step known) :
    Yields step known := by
  intro progress answer after made
  obtain ⟨same, last, again, isKnown⟩ := succeeds progress
  cases made.symm.trans again
  exact isKnown

/-- What the first part of a step always answers is known to the rest. -/
theorem Gives.bind_known {fine : Progress → Prop} {first : Lower α} {rest : α → Lower β}
    {known : α → Prop} {middle : α → List Target.Function → Prop}
    {post : β → List Target.Function → Prop} (succeeds : Succeeds first known)
    (one : Gives fine first middle)
    (other : ∀ value, known value → Gives fine (rest value) fun answer more =>
      ∀ made, middle value made → post answer (made ++ more)) :
    Gives fine (first >>= rest) post :=
  one.bind_yields succeeds.yields other

theorem Answers.bind_known {fine : Progress → Prop} {first : Lower α} {rest : α → Lower β}
    {known middle : α → Prop} {post : β → List Target.Function → Prop}
    (succeeds : Succeeds first known) (one : Answers fine first middle)
    (other : ∀ value, known value → Gives fine (rest value) fun answer made =>
      middle value → post answer made) : Gives fine (first >>= rest) post := by
  refine Gives.bind_known succeeds one fun value isKnown => (other value isKnown).imp ?_
  rintro answer more goes made ⟨rfl, found⟩
  exact goes found

end Lower

end GotoFree
