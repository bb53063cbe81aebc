import GotoFree.Proofs.FlaggedCode
import GotoFree.Proofs.Plans

/-!
# The flag table of a method

The flags of a method are numbered from one on, in the order in which they were asked for first.
The table lists the coordinates that something waits for; each flag in it is stored once in the
functions of the method, on the way out of its block along its coordinate; and wherever the control
cell is compared with a number, that number is a flag of the table (`Lower.method_flags`). This
needs that no local is named like the control cell.
-/

namespace GotoFree

open Target (Script Stmt)

/-! ## Numbers -/

section Numbers

variable {final : Progress}

/-- A numbering lists its values with their positions, counted from the start. -/
theorem Numbering.map_fst_listed {α : Type} {numbering : Numbering α} {start : Nat} :
    (numbering.listed start).map Prod.fst = List.range' start numbering.order.length := by
  apply List.ext_getElem
  · simp [Numbering.listed]
  · simp [Numbering.listed]

/-- The table of a method lists its flags. -/
theorem flags_eq (distinct : final.recorded.order.Nodup) :
    (final.recorded.listed 1).map (fun (flag, coord) => ((flag : Int), coord)) =
      final.recorded.order.map fun coord => (flagOf final coord, coord) := by
  apply List.ext_getElem
  · simp [Numbering.listed]
  · intro index inside other
    have bound : index < final.recorded.order.length := by simpa using other
    simp only [Numbering.listed, List.map_map, List.getElem_map, List.getElem_zipIdx,
      Function.comp_apply, flagOf, distinct.idxOf_getElem index bound]
    simp [Int.add_comm]

end Numbers

namespace Job

/-- The flag table of a method and the code of the method agree. -/
structure FlagTable (job : Job) (code : MethodCode) : Prop where
  /-- The flags are the numbers from one on. -/
  numbers : code.flags.map Prod.fst = (List.range' 1 code.flags.length).map Int.ofNat
  distinct : (code.flags.map Prod.snd).Nodup
  listed : ∀ coord, coord ∈ code.flags.map Prod.snd ↔ coord ∈ job.flags.recorded
  /-- Each flag is written to the control cell by one statement, and nothing else is. -/
  stored : (code.functions.flatMap (Target.Function.writes controlCell)).Perm
    ((code.flags.map Prod.fst).map .int)
  placed : ∀ flag coord, (flag, coord) ∈ code.flags →
    ∃ function ∈ code.functions, job.RecordedIn flag coord function.body
  /-- The control cell is only compared, and with flags that are stored. -/
  compared : ∀ function ∈ code.functions, ∀ op left right,
    .binary op left right ∈ function.exprs →
      left = .contentOf controlCell ∨ right = .contentOf controlCell →
        op = .eq ∧ left = .contentOf controlCell ∧ ∃ flag ∈ code.flags.map Prod.fst,
          right = .int flag ∧ flag ≠ 0 ∧
            ∃ other ∈ code.functions, .int flag ∈ other.writes controlCell

variable {job : Job} {final : Progress} {code : MethodCode} {sites : List Coord}

/-- Code that stores the flags of all coordinates that something waits for agrees with the table of
these flags. -/
theorem StoresFlags.flagTable
    (stores : job.StoresFlags final sites (fun _ => False) [] code.functions)
    (once : ∀ coord ∈ job.flags.recorded, sites.count coord = 1)
    (distinct : final.recorded.order.Nodup)
    (sound : ∀ coord ∈ final.recorded.order, coord ∈ job.flags.recorded)
    (listed : code.flags =
      (final.recorded.listed 1).map fun (flag, coord) => ((flag : Int), coord)) :
    job.FlagTable code := by
  have places {coord : Coord} (waits : coord ∈ job.flags.recorded) : coord ∈ sites :=
    List.count_pos_iff.1 (by rw [once coord waits]; exact Nat.one_pos)
  have table := listed.trans (flags_eq distinct)
  have coords : code.flags.map Prod.snd = final.recorded.order := by
    simp [table, Function.comp_def]
  have flags : code.flags.map Prod.fst = final.recorded.order.map (flagOf final) := by
    simp [table, Function.comp_def]
  have numbers : code.flags.map Prod.fst = (List.range' 1 code.flags.length).map Int.ofNat := by
    rw [listed, List.map_map, List.length_map, ← List.length_map Prod.fst, Numbering.map_fst_listed,
      List.length_range', ← Numbering.map_fst_listed, List.map_map]
    rfl
  -- The coordinates that are stored are those in the table.
  have same : (sites.filter (· ∈ job.flags.recorded)).Perm final.recorded.order := by
    refine (List.perm_ext_iff_of_nodup (List.nodup_iff_count_le_one.2 fun coord => ?_) distinct).2
      fun coord => ?_
    · by_cases waits : coord ∈ job.flags.recorded
      · rw [List.count_filter (by simpa using waits)]
        exact Nat.le_of_eq (once coord waits)
      · rw [List.count_eq_zero_of_not_mem (by simp [waits])]
        exact Nat.zero_le 1
    · rw [List.mem_filter, decide_eq_true_eq]
      exact ⟨fun ⟨site, waits⟩ => stores.flagged coord site waits,
        fun member => ⟨places (sound coord member), sound coord member⟩⟩
  have stored : (code.functions.flatMap (Target.Function.writes controlCell)).Perm
      ((code.flags.map Prod.fst).map .int) := by
    rw [flags]
    exact stores.written.trans ((same.map _).map _)
  refine ⟨numbers, coords ▸ distinct, fun coord => ?_, stored, fun flag coord member => ?_, ?_⟩
  · rw [coords]
    exact ⟨sound coord, fun waits => stores.flagged coord (places waits) waits⟩
  · rw [table] at member
    obtain ⟨other, among, same⟩ := List.mem_map.1 member
    cases same
    have waits := sound coord among
    exact (stores.placed coord (places waits) waits).resolve_left (fun none => none)
  · intro function isFunction op left right inside takes
    obtain ⟨notRight, compares⟩ := stores.compared _
      (List.mem_append_right _ (List.mem_flatMap.2 ⟨function, isFunction, inside⟩))
    obtain ⟨rfl, flag, known, rfl⟩ := compares (takes.resolve_right notRight)
    rw [← flags] at known
    refine ⟨rfl, takes.resolve_right notRight, flag, known, rfl, ?_, ?_⟩
    · rw [numbers] at known
      obtain ⟨number, inRange, rfl⟩ := List.mem_map.1 known
      have positive := (List.mem_range'_1.1 inRange).1
      simp only [Int.ofNat_eq_natCast]
      omega
    · have written := stored.mem_iff.2 (List.mem_map_of_mem known)
      exact List.mem_flatMap.1 written

end Job

/-- The locals of a checked plan are declared. -/
theorem Method.declared_of_checkedPlan {method : Method} {plan : BindingPlan}
    (checked : method.checkedPlan = .ok plan) {entry : String × Binding}
    (member : entry ∈ plan.locals) : ∃ declared ∈ method.locals, declared.name = entry.1 := by
  obtain ⟨-, -, declares⟩ := Method.checkedPlan_eq_ok_iff.1 checked
  apply Method.isSome_localType?_iff.1
  apply declares
  rw [← BindingPlan.map_fst_locals]
  exact List.mem_map_of_mem member

/-- The flag table of every method that is lowered agrees with its code, if no local is named like
the control cell. -/
theorem Lower.method_flags {setting : Setting} {id : MethodId} {method : Method}
    {progress after : Progress} {code : MethodCode}
    (made : Lower.method setting id method progress = .ok (code, after))
    (free : ∀ declared ∈ method.locals, declared.name ≠ controlCell) :
    ∃ (job : Job) (graph : BlockGraph) (found : Structured) (tree : Tree),
      job.setting = setting ∧ job.id = id ∧ job.method = method ∧
      method.checkedPlan = .ok job.plan ∧
      BlockGraph.ofBlocks method.entry method.blocks = .ok graph ∧
      graph.toStructured = .ok found ∧
      found.root.marked found.recursing = .ok (tree, job.flags) ∧ job.FlagTable code := by
  obtain ⟨job, graph, found, tree, entry, scope, steps, inside, begun, rfl, rfl, rfl, -, isPlan,
    built, isStructured, isFound, marked, -, introduces, -, -, none, unflagged, lowered, functions,
    flags⟩ := method_runs made
  have checked := BlockGraph.checked_ofBlocks built
  obtain ⟨isMarked, complete⟩ := isFound.complete checked marked
  have avoids : job.Avoids := by
    intro entry member
    obtain ⟨declared, among, same⟩ := Method.declared_of_checkedPlan isPlan member
    exact same ▸ free declared among
  have planned : job.Planned scope := Job.planned_empty.introduced
    (fun _ member => List.mem_append_left _ member) introduces
  obtain ⟨flagging, more, helpers, stores⟩ := Job.gives_stores_tree avoids built isFound.isOf
    isMarked.fits LoopForest.owns_none complete.awaited scope planned begun _ after lowered .refl
  rw [none, List.nil_append] at helpers
  have control : Script.Spares controlCell
      (if job.hasControlCell then [Script.bindCell controlCell (.int 0)] else []) := by
    split
    · exact Script.spares_bindCell.2 Target.Expr.sparesAll_int
    · exact Script.spares_nil
  have opening := Script.spares_append.2 ⟨control, Job.spares_introduceEntry introduces⟩
  -- The function of the method runs the code of the tree behind what introduces its locals.
  have whole : job.StoresFlags after tree.jumpSites (fun _ => False) [] code.functions := by
    rw [functions, helpers]
    exact (Job.StoresFlags.closed ((Job.StoresFlags.of_spares opening Job.sparedBy_nil).append
      (stores.behind _))).snoc
  refine ⟨job, graph, found, tree, rfl, rfl, rfl, isPlan, built, isStructured, marked,
    whole.flagTable (fun coord waits => (complete.once coord ?_).1) ?_ ?_ flags⟩
  · simp [Flags.needsCode, waits]
  · exact flagging.distinct (by simp [unflagged, Numbering.empty])
  · exact flagging.sound (by simp [unflagged, Numbering.empty])

/-- A method with a loop that is left in two ways. -/
def leavingMethod : Method where
  className := "A"
  name := "leave"
  isStatic := true
  params := []
  returnType := .int
  locals := [⟨"x", .int⟩]
  entry := ⟨0⟩
  blocks := [
    ⟨⟨0⟩, [.goto], [⟨1⟩]⟩,
    ⟨⟨1⟩, [.branch .nondet], [⟨2⟩, ⟨3⟩]⟩,
    ⟨⟨2⟩, [.branch .nondet], [⟨1⟩, ⟨4⟩]⟩,
    ⟨⟨3⟩, [.assign (.var "x") (.use (.int 1))], [⟨4⟩]⟩,
    ⟨⟨4⟩, [.ret (some (.var "x"))], []⟩]
  plan := none

/-- A method that leaves a loop in two ways has a table with a flag for each. -/
theorem Lower.method_flags_leaving : ∃ (job : Job) (code : MethodCode) (after : Progress),
    Lower.method ⟨⟨[], .empty, default⟩, ⟨.empty, .empty, .empty⟩, .functional⟩ default
      leavingMethod .start = .ok (code, after) ∧ job.FlagTable code ∧
        code.flags = [(1, ⟨⟨2⟩, .notTaken⟩), (2, ⟨⟨1⟩, .notTaken⟩)] := by
  have table : (Lower.method ⟨⟨[], .empty, default⟩, ⟨.empty, .empty, .empty⟩, .functional⟩ default
      leavingMethod .start).toOption.map (fun made => made.1.flags) =
        some [(1, ⟨⟨2⟩, .notTaken⟩), (2, ⟨⟨1⟩, .notTaken⟩)] := by
    decide +kernel
  cases made : Lower.method ⟨⟨[], .empty, default⟩, ⟨.empty, .empty, .empty⟩, .functional⟩ default
      leavingMethod .start with
  | error failure => simp [made, Except.toOption] at table
  | ok answer =>
      obtain ⟨code, after⟩ := answer
      obtain ⟨job, -, -, -, -, -, -, -, -, -, -, agrees⟩ := Lower.method_flags made (by decide)
      rw [made] at table
      exact ⟨job, code, after, rfl, agrees, Option.some.inj table⟩

end GotoFree
