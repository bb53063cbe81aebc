import GotoFree.Proofs.Callees
import GotoFree.Proofs.Plans
import GotoFree.Proofs.ScopedScripts

/-!
# What the names of a method stand for

In the functions of a method each name stands for one kind of thing only: a local for what its plan
makes of it, the name of a slot for what the slots of objects are, the control cell for a cell, and
every other name that lowering makes up for a plain value (`Job.kinds`).
-/

namespace GotoFree

open Target (Kind Kinds Script Signature)

/-- What the slots of objects are. -/
def ObjectModel.slotKind : ObjectModel → Kind
  | .mutable => .cell
  | .functional => .plain

/-- What a local of a binding is. -/
def Binding.kind : Binding → Kind
  | .mutable => .cell
  | .const => .plain

/-- The locals that a plan introduces, with their bindings. -/
def BindingPlan.locals (plan : BindingPlan) : List (String × Binding) :=
  plan.entry.entries ++ plan.blocks.entries.flatMap fun block => block.2.entries

theorem BindingPlan.map_fst_locals {plan : BindingPlan} :
    plan.locals.map Prod.fst = plan.introductions.map Prod.fst := by
  simp [locals, introductions, places, SortedMap.keys, List.map_flatMap, List.flatMap_map,
    Function.comp_def]

/-- What a plan introduces at a block is a local of the plan. -/
theorem BindingPlan.mem_locals_of_block {plan : BindingPlan} {id : BlockId}
    {entry : String × Binding}
    (member : entry ∈ ((plan.blocks.get? id).getD .empty).entries) : entry ∈ plan.locals := by
  refine List.mem_append_right _ (List.mem_flatMap.2 ?_)
  cases listed : plan.blocks.get? id with
  | none => simp [listed, SortedMap.empty] at member
  | some locals => exact ⟨_, SortedMap.get?_eq_some_iff.1 listed, by simpa [listed] using member⟩

/-- The name of a slot starts like this. -/
def slotStem : String := "__field_"

namespace Job

/-- What the names in the functions of a method stand for. -/
def kinds (job : Job) : Kinds := fun name =>
  if name = controlCell ∨ (name, .mutable) ∈ job.plan.locals then .cell
  else if slotStem.toList <+: name.toList then job.setting.model.slotKind
  else .plain

/-- The plan of a method introduces each local once, and none has a name that lowering keeps for
itself; the layout has room for all fields, and for a tag in each object. -/
structure Fair (job : Job) : Prop where
  once : (job.plan.locals.map Prod.fst).Nodup
  free : ∀ entry ∈ job.plan.locals, ¬ IsReserved entry.1
  roomy : job.setting.layout.Roomy
  tagged : ∀ className width, job.setting.layout.width? className = some width → 0 < width

variable {job : Job} {scope : Scope} {name : String} {binding : Binding}

/-- The control cell stands for a cell. -/
theorem kinds_control : job.kinds controlCell = .cell := if_pos (.inl rfl)

/-- A planned local stands for what its binding says. -/
theorem Fair.kinds_local (fair : job.Fair) (member : (name, binding) ∈ job.plan.locals) :
    job.kinds name = binding.kind := by
  have free := fair.free _ member
  have notControl : name ≠ controlCell := by
    rintro rfl
    exact free isReserved_controlCell
  have notSlot : ¬ slotStem.toList <+: name.toList := fun starts =>
    free (.trans (by decide) starts)
  cases binding with
  | mutable => exact if_pos (.inr member)
  | const =>
      have notCell : (name, Binding.mutable) ∉ job.plan.locals := fun other => by
        have same := List.inj_on_of_nodup_map fair.once member other rfl
        cases same
      rw [kinds, if_neg (not_or.2 ⟨notControl, notCell⟩), if_neg notSlot]
      rfl

/-- Other reserved names stand for plain values, except for slots. -/
theorem Fair.kinds_reserved (fair : job.Fair) (reserved : IsReserved name)
    (notControl : name ≠ controlCell) :
    job.kinds name = if slotStem.toList <+: name.toList then job.setting.model.slotKind
      else .plain :=
  if_neg (not_or.2 ⟨notControl, fun member => fair.free _ member reserved⟩)

/-- A slot stands for what the object model says. -/
theorem Fair.kinds_slot (fair : job.Fair) (starts : slotStem.toList <+: name.toList) :
    job.kinds name = job.setting.model.slotKind := by
  have notControl : name ≠ controlCell := by
    rintro rfl
    exact absurd starts (by decide)
  rw [fair.kinds_reserved (.trans (by decide) starts) notControl, if_pos starts]

/-- A name that lowering makes up from a stem is a plain value, unless it names a slot. -/
theorem Fair.kinds_stem (fair : job.Fair) {stem ending : String} (reserved : IsReserved stem)
    (notControl : ¬ stem.toList <+: controlCell.toList)
    (notSlot : ¬ stem.toList <+: slotStem.toList ∧ ¬ slotStem.toList <+: stem.toList) :
    job.kinds (stem ++ ending) = .plain := by
  have starts : stem.toList <+: (stem ++ ending).toList := by
    rw [String.toList_append]
    exact List.prefix_append _ _
  rw [fair.kinds_reserved (reserved.append ending), if_neg]
  · intro slot
    rcases List.prefix_or_prefix_of_prefix starts slot with first | second
    · exact notSlot.1 first
    · exact notSlot.2 second
  · intro same
    exact notControl (same ▸ starts)

/-- An argument stands for a plain value. -/
theorem Fair.kinds_incoming (fair : job.Fair) (member : name ∈ job.method.incomingNames) :
    job.kinds name = .plain := by
  obtain ⟨param, among, rfl⟩ := List.mem_map.1 member
  obtain ⟨source, type, rfl⟩ : ∃ source type, param = job.method.paramAt source type := by
    rcases List.mem_append.1 among with this | others
    · split at this
      · cases this
      · exact ⟨_, _, List.mem_singleton.1 this⟩
    · obtain ⟨entry, -, rfl⟩ := List.mem_map.1 others
      exact ⟨_, _, rfl⟩
  unfold Method.paramAt
  dsimp only
  split
  · exact @kinds_stem job fair "__this" "" (by decide) (by decide) (by decide)
  · exact fair.kinds_stem (by decide) (by decide) (by decide)
  · exact fair.kinds_stem (by decide) (by decide) (by decide)

/-! ## Scopes -/

/-- The locals of a scope are as the plan has them, and the names of the loop around it are in
sight. -/
structure Planned (job : Job) (scope : Scope) : Prop where
  bound : ∀ name binding, scope.binding? name = some binding → (name, binding) ∈ job.plan.locals
  postponed : ∀ name binding, scope.postponed? name = some binding →
    (name, binding) ∈ job.plan.locals
  frame : ∀ frame, scope.loop = some frame → frame.params ⊆ job.loopParams scope

/-- The parameters of a loop are the control cell, the arguments and the bound locals. -/
theorem mem_loopParams_iff : name ∈ job.loopParams scope ↔
    (job.hasControlCell = true ∧ name = controlCell) ∨ name ∈ job.method.incomingNames ∨
      ∃ binding, scope.binding? name = some binding := by
  rw [loopParams, List.mem_append, List.mem_append, or_assoc, Scope.locals, SortedMap.mem_keys_iff]
  refine or_congr_left ?_
  split <;> simp_all

theorem planned_empty : job.Planned .empty :=
  ⟨nofun, nofun, nofun⟩

/-- A local that is bound adds to the parameters of a loop. -/
theorem loopParams_bind : job.loopParams scope ⊆ job.loopParams (scope.bind name binding) := by
  intro other member
  rw [mem_loopParams_iff] at member ⊢
  refine member.imp_right (Or.imp_right fun found => ?_)
  obtain ⟨known, isKnown⟩ := found
  rw [Scope.binding?_bind]
  split
  · exact ⟨_, rfl⟩
  · exact ⟨known, isKnown⟩

/-- Nothing but that local is added. -/
theorem mem_loopParams_bind {other : String}
    (member : other ∈ job.loopParams (scope.bind name binding)) :
    other = name ∨ other ∈ job.loopParams scope := by
  rw [mem_loopParams_iff] at member ⊢
  rcases member with control | incoming | ⟨known, found⟩
  · exact .inr (.inl control)
  · exact .inr (.inr (.inl incoming))
  · rw [Scope.binding?_bind] at found
    split at found
    · next same => exact .inl same.symm
    · exact .inr (.inr (.inr ⟨known, found⟩))

/-- A planned local may be bound. -/
theorem Planned.bind (planned : job.Planned scope) (member : (name, binding) ∈ job.plan.locals) :
    job.Planned (scope.bind name binding) := by
  refine ⟨fun other known found => ?_, fun other known found => ?_, fun frame isLoop =>
    List.Subset.trans (planned.frame frame isLoop) loopParams_bind⟩
  · rw [Scope.binding?_bind] at found
    split at found
    · next same =>
      cases found
      exact same ▸ member
    · exact planned.bound other known found
  · rw [Scope.postponed?_bind] at found
    split at found
    · cases found
    · exact planned.postponed other known found

/-- A planned local may be postponed. -/
theorem Planned.postpone (planned : job.Planned scope)
    (member : (name, binding) ∈ job.plan.locals) : job.Planned (scope.postpone name binding) := by
  refine ⟨planned.bound, fun other known found => ?_, planned.frame⟩
  rw [Scope.postponed?_postpone] at found
  split at found
  · next same =>
    cases found
    exact same ▸ member
  · exact planned.postponed other known found

end Job

end GotoFree
