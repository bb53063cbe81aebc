import GotoFree.Storage.Bindings
import GotoFree.Proofs.Check

/-!
# Checked binding plans

A plan passes its check exactly if every local that it introduces is declared, and is introduced
once (`Method.checkedPlan_eq_ok_iff`).
-/

namespace GotoFree

namespace Method

variable {method : Method}

/-- Introductions pass their check if their locals are declared, differ, and were not met before. -/
theorem checkIntroductions_eq_ok_iff {list met : List (String × String)} :
    method.checkIntroductions met list = .ok () ↔
      (list.map Prod.fst).Nodup ∧ ∀ entry ∈ list,
        (method.localType? entry.1).isSome = true ∧ met.lookup entry.1 = none := by
  induction list generalizing met with
  | nil => simp [checkIntroductions]
  | cons first rest ih =>
      obtain ⟨name, place⟩ := first
      unfold checkIntroductions
      cases declared : method.localType? name with
      | none => simp [declared]
      | some type =>
          cases earlier : met.lookup name with
          | some place =>
              simp only [Option.isNone_some, Bool.false_eq_true, if_false, throw_eq_error,
                reduceCtorEq, List.forall_mem_cons, earlier, and_false, false_and]
          | none =>
              have fresh (entry : String × String) (other : entry.1 ≠ name) :
                  ((name, place) :: met).lookup entry.1 = met.lookup entry.1 := by
                rw [List.lookup_cons, beq_eq_false_iff_ne.2 other]
              simp only [Option.isNone_some, Bool.false_eq_true, if_false, ih,
                List.map_cons, List.nodup_cons, List.forall_mem_cons, declared, earlier,
                Option.isSome_some, and_self, true_and]
              constructor
              · rintro ⟨distinct, others⟩
                have differ (entry : String × String) (member : entry ∈ rest) : entry.1 ≠ name := by
                  intro same
                  simpa [same] using (others entry member).2
                refine ⟨⟨fun member => ?_, distinct⟩, fun entry member => ?_⟩
                · obtain ⟨entry, among, same⟩ := List.mem_map.1 member
                  exact differ entry among same
                · rw [← fresh entry (differ entry member)]
                  exact others entry member
              · rintro ⟨⟨other, distinct⟩, others⟩
                refine ⟨distinct, fun entry member => ?_⟩
                rw [fresh entry fun same => other (List.mem_map.2 ⟨entry, member, same⟩)]
                exact others entry member

/-- A plan is used as it is if every local that it introduces is declared and introduced once. -/
theorem checkedPlan_eq_ok_iff {plan : BindingPlan} : method.checkedPlan = .ok plan ↔
    plan = method.effectivePlan ∧ (plan.introductions.map Prod.fst).Nodup ∧
      ∀ name ∈ plan.introductions.map Prod.fst, (method.localType? name).isSome = true := by
  unfold checkedPlan
  dsimp only
  cases checked : method.checkIntroductions [] method.effectivePlan.introductions with
  | error reason =>
      simp only [error_bind, reduceCtorEq, false_iff]
      rintro ⟨rfl, distinct, declared⟩
      have passes : method.checkIntroductions [] method.effectivePlan.introductions = .ok () :=
        checkIntroductions_eq_ok_iff.2 ⟨distinct, fun entry member =>
          ⟨declared _ (List.mem_map_of_mem member), rfl⟩⟩
      cases checked.symm.trans passes
  | ok =>
      obtain ⟨distinct, declared⟩ := checkIntroductions_eq_ok_iff.1 checked
      simp only [ok_bind, pure_eq_ok, Except.ok.injEq]
      constructor
      · rintro rfl
        refine ⟨rfl, distinct, fun name member => ?_⟩
        obtain ⟨entry, among, rfl⟩ := List.mem_map.1 member
        exact (declared entry among).1
      · rintro ⟨rfl, -⟩
        rfl

/-- A local has a type if it is declared. -/
theorem isSome_localType?_iff {name : String} :
    (method.localType? name).isSome = true ↔ ∃ declared ∈ method.locals, declared.name = name := by
  simp [localType?]

/-- The plan with a cell for every local introduces the declared locals. -/
theorem get?_allCells {name : String} :
    (BindingPlan.allCells method.locals).entry.get? name =
      if (method.localType? name).isSome then some .mutable else none := by
  have isCell : ∀ entry ∈ method.locals.map fun declared => (declared.name, Binding.mutable),
      entry.2 = .mutable := by simp
  rw [BindingPlan.allCells, SortedMap.ofList, SortedMap.get?_foldl_insert, SortedMap.get?_empty,
    Option.or_none]
  split
  · next declared =>
    obtain ⟨found, member, rfl⟩ := isSome_localType?_iff.1 declared
    cases last : (method.locals.map fun declared => (declared.name, Binding.mutable)).reverse.find?
        fun entry => entry.1 = found.name with
    | none =>
        have listed : (found.name, Binding.mutable) ∈
            (method.locals.map fun declared => (declared.name, Binding.mutable)).reverse :=
          List.mem_reverse.2 (List.mem_map.2 ⟨found, member, rfl⟩)
        exact absurd (decide_eq_true rfl) (List.find?_eq_none.1 last _ listed)
    | some entry =>
        rw [Option.map_some, isCell entry (List.mem_reverse.1 (List.mem_of_find?_eq_some last))]
  · next undeclared =>
    rw [isSome_localType?_iff] at undeclared
    simpa using undeclared

/-- Without a plan, every declared local is a cell from the start. -/
theorem mem_keys_allCells {name : String} :
    name ∈ (BindingPlan.allCells method.locals).entry.keys ↔
      (method.localType? name).isSome = true := by
  rw [SortedMap.mem_keys_iff, get?_allCells]
  split <;> simp_all

/-- The plan of a method without one passes its check. -/
theorem checkedPlan_of_none (none : method.plan = none) :
    method.checkedPlan = .ok (.allCells method.locals) := by
  have names : (BindingPlan.allCells method.locals).introductions.map Prod.fst =
      (BindingPlan.allCells method.locals).entry.keys := by
    simp [BindingPlan.introductions, BindingPlan.places, Function.comp_def,
      show (BindingPlan.allCells method.locals).blocks.entries = [] from rfl]
  refine checkedPlan_eq_ok_iff.2 ⟨by simp [effectivePlan, none], ?_, ?_⟩
  · rw [names]
    exact SortedMap.nodup_keys _
  · rw [names]
    exact fun name => mem_keys_allCells.1

end Method

end GotoFree
