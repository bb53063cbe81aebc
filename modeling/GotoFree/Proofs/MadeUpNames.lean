import GotoFree.Lowering.Body
import GotoFree.Proofs.Names

/-!
# Names that lowering makes up

Every name that lowering makes up for the functions of a method begins with one of a few stems, no
two of which go together (`stem_inj`). A temporary shows the number of its instruction behind its
stem, so temporaries of different instructions differ (`IsTemporary.unit_eq`); those of one
instruction differ because a stem that is asked for again is counted on. The arguments of a
method's function have different names exactly if no two parameters are copied into one local
(`Method.nodup_incomingNames_iff`).
-/

namespace GotoFree

/-- How the names begin that lowering makes up for the functions of a method. -/
def stems : List String :=
  ["__ctl", "__this", "__in_", "__arg", "__base_ptr_", "__field_", "__call", "__loop_res_"]

/-- A name begins as those that lowering makes up. -/
def IsMadeUp (name : String) : Prop := ∃ stem ∈ stems, stem.toList <+: name.toList

instance {name : String} : Decidable (IsMadeUp name) :=
  inferInstanceAs (Decidable (∃ stem ∈ stems, stem.toList <+: name.toList))

/-- What begins with a stem begins as lowering names things. -/
theorem isMadeUp_append {stem rest : String} (isStem : stem ∈ stems) : IsMadeUp (stem ++ rest) := by
  refine ⟨stem, isStem, ?_⟩
  rw [String.toList_append]
  exact List.prefix_append _ _

/-- A name has one stem. -/
theorem stem_inj {one two rest more : String} (isOne : one ∈ stems) (isTwo : two ∈ stems)
    (same : one ++ rest = two ++ more) : one = two := by
  have apart : ∀ one ∈ stems, ∀ two ∈ stems, one.toList <+: two.toList → one = two := by decide
  have lists := congrArg String.toList same
  rw [String.toList_append, String.toList_append] at lists
  rcases List.append_eq_append_iff.1 lists with ⟨between, known, -⟩ | ⟨between, known, -⟩
  · exact apart one isOne two isTwo ⟨between, known.symm⟩
  · exact (apart two isTwo one isOne ⟨between, known.symm⟩).symm

/-! ## Temporaries -/

namespace Temporaries

/-- How often a stem was asked for. -/
def count (temporaries : Temporaries) (stem : String) : Nat :=
  (temporaries.issued.get? stem).getD 0

/-- The name of a temporary whose stem was asked for a number of times before. -/
def named (unit : Nat) (stem : String) (count : Nat) : String :=
  if count = 0 then stem ++ "_" ++ toString unit
  else stem ++ "_" ++ toString unit ++ "_" ++ toString count

/-- The stems of the temporaries of a field access. -/
def accessStems : List String := ["__base_ptr", "__field"]

/-- A temporary is named after its stem and the number of the instruction. -/
theorem named_eq (unit : Nat) (stem : String) (count : Nat) :
    ∃ ending : String, named unit stem count = stem ++ "_" ++ toString unit ++ ending ∧
      ∀ c ∈ ending.toList.head?, c = '_' := by
  unfold named
  split
  · exact ⟨"", by simp, by simp⟩
  · exact ⟨"_" ++ toString count, by simp only [String.append_assoc], by simp⟩

end Temporaries

/-- How the temporaries of an instruction begin. -/
def temporaryStems : List String := ["__base_ptr_", "__field_", "__call"]

/-- A name is that of a temporary of the instruction with a number: of an access to a field, of a
slot that is named after one, or of an argument of a call. -/
def IsTemporary (unit : Nat) (name : String) : Prop :=
  (∃ stem ∈ Temporaries.accessStems, ∃ count : Nat, name = Temporaries.named unit stem count ∨
      ∃ index : Nat, name = Temporaries.named unit stem count ++ "_" ++ toString index) ∨
    ∃ position : Nat, name = "__call" ++ toString unit ++ "_" ++ toString position

namespace IsTemporary

variable {unit other : Nat} {name : String}

/-- A temporary shows the number of its instruction between its stem and what follows. -/
theorem exists_ending (isTemporary : IsTemporary unit name) :
    ∃ stem ∈ temporaryStems, ∃ ending : String, name = stem ++ toString unit ++ ending ∧
      ∀ c ∈ ending.toList.head?, c = '_' := by
  have areStems : ∀ stem ∈ Temporaries.accessStems, stem ++ "_" ∈ temporaryStems := by decide
  obtain ⟨stem, isStem, count, ofAccess⟩ | ⟨position, rfl⟩ := isTemporary
  · obtain ⟨ending, named, ends⟩ := Temporaries.named_eq unit stem count
    refine ⟨stem ++ "_", areStems stem isStem, ?_⟩
    obtain rfl | ⟨index, rfl⟩ := ofAccess
    · exact ⟨ending, named, ends⟩
    · refine ⟨ending ++ "_" ++ toString index, by simp only [named, String.append_assoc], ?_⟩
      intro c first
      rw [String.toList_append, String.toList_append] at first
      cases listed : ending.toList with
      | nil => simpa [listed, eq_comm] using first
      | cons head tail => exact ends c (by simpa [listed] using first)
  · refine ⟨"__call", by decide, "_" ++ toString position, ?_, by simp⟩
    rw [String.append_assoc]

/-- The name of a temporary begins with one of their stems. -/
theorem exists_stem (isTemporary : IsTemporary unit name) :
    ∃ stem ∈ temporaryStems, ∃ rest, name = stem ++ rest := by
  obtain ⟨stem, isStem, ending, rfl, -⟩ := isTemporary.exists_ending
  exact ⟨stem, isStem, _, String.append_assoc⟩

/-- The stems of temporaries are among all stems. -/
theorem mem_stems {stem : String} (isStem : stem ∈ temporaryStems) : stem ∈ stems := by
  revert stem
  decide

/-- The name of a temporary begins as lowering names things. -/
theorem isMadeUp (isTemporary : IsTemporary unit name) : IsMadeUp name := by
  obtain ⟨stem, isStem, rest, rfl⟩ := isTemporary.exists_stem
  exact isMadeUp_append (mem_stems isStem)

/-- A temporary is no name with another stem. -/
theorem ne {stem rest : String} (isTemporary : IsTemporary unit name) (isStem : stem ∈ stems)
    (another : stem ∉ temporaryStems) : name ≠ stem ++ rest := by
  rintro same
  obtain ⟨own, isOwn, more, rfl⟩ := isTemporary.exists_stem
  exact another (stem_inj (mem_stems isOwn) isStem same ▸ isOwn)

/-- The number of its instruction is told by the name of a temporary. -/
theorem unit_eq (one : IsTemporary unit name) (two : IsTemporary other name) : unit = other := by
  obtain ⟨stem, isStem, ending, rfl, ends⟩ := one.exists_ending
  obtain ⟨another, isOther, more, same, others⟩ := two.exists_ending
  rw [String.append_assoc, String.append_assoc] at same
  obtain rfl := stem_inj (mem_stems isStem) (mem_stems isOther) same
  have lists := congrArg String.toList ((String.append_right_inj _).1 same)
  rw [String.toList_append, String.toList_append, toList_toString, toList_toString] at lists
  refine digits_append_inj lists (fun c first => ?_) fun c first => ?_
  · rw [ends c first]
    decide
  · rw [others c first]
    decide

end IsTemporary

namespace Temporaries

variable {temporaries : Temporaries} {stem : String} {unit : Nat}

/-- A fresh name is counted under its stem only. -/
theorem count_fresh {other : String} : (temporaries.fresh stem).2.count other =
    if stem = other then temporaries.count stem + 1 else temporaries.count other := by
  simp only [count, fresh, SortedMap.get?_insert]
  split <;> rfl

/-- The name of an argument is that of a temporary. -/
theorem isTemporary_argument {position : Nat} :
    IsTemporary temporaries.unit (temporaries.argument position) :=
  .inr ⟨position, rfl⟩

/-- The arguments of a call are told by their positions. -/
theorem argument_inj {one two : Nat} (same : temporaries.argument one = temporaries.argument two) :
    one = two :=
  (append_toString_inj same).2

/-- A text is not what it becomes with more behind it. -/
theorem append_ne {text rest : String} : text ≠ text ++ "_" ++ rest := by
  intro same
  have length := congrArg String.length same
  rw [String.length_append, String.length_append, show "_".length = 1 from rfl] at length
  omega

/-- Names of one stem are told by their counts. -/
theorem named_inj {one two : Nat} (same : named unit stem one = named unit stem two) :
    one = two := by
  unfold named at same
  split at same
  · split at same
    · omega
    · exact absurd same append_ne
  · split at same
    · exact absurd same.symm append_ne
    · exact (append_toString_inj same).2

/-- A temporary is not the name of a slot that is named after a later one with its stem. -/
theorem named_ne_slot {earlier later index : Nat} (before : earlier < later) :
    named unit stem earlier ≠ named unit stem later ++ "_" ++ toString index := by
  have counted : named unit stem later =
      stem ++ "_" ++ toString unit ++ "_" ++ toString later := if_neg (by omega)
  intro same
  rw [counted] at same
  unfold named at same
  split at same
  · exact @append_ne (stem ++ "_" ++ toString unit) (toString later ++ "_" ++ toString index)
      (same.trans (by simp only [String.append_assoc]))
  · exact append_ne (append_toString_inj same).1

/-- A name may have been handed out: it is that of a temporary whose stem was asked for often
enough, or of an argument. -/
def Drawn (temporaries : Temporaries) (name : String) : Prop :=
  (∃ stem ∈ accessStems, ∃ earlier < temporaries.count stem,
    name = named temporaries.unit stem earlier) ∨
    ∃ position, name = temporaries.argument position

/-- What an access makes up are temporaries. -/
theorem isTemporary_of_access {count : Nat} (isStem : stem ∈ accessStems) :
    IsTemporary unit (named unit stem count) :=
  .inl ⟨stem, isStem, count, .inl rfl⟩

/-- A slot that is named after a temporary belongs to the same instruction. -/
theorem isTemporary_slot {count index : Nat} (isStem : stem ∈ accessStems) :
    IsTemporary unit (named unit stem count ++ "_" ++ toString index) :=
  .inl ⟨stem, isStem, count, .inr ⟨index, rfl⟩⟩

/-- What has been drawn is a temporary of the instruction. -/
theorem Drawn.isTemporary {name : String} (drawn : temporaries.Drawn name) :
    IsTemporary temporaries.unit name := by
  obtain ⟨stem, isStem, earlier, -, rfl⟩ | ⟨position, rfl⟩ := drawn
  · exact isTemporary_of_access isStem
  · exact isTemporary_argument

/-- Behind the stem of a name stands an underscore. -/
theorem exists_tail {count : Nat} :
    ∃ tail, named unit stem count = stem ++ "_" ++ tail := by
  unfold named
  split
  · exact ⟨toString unit, rfl⟩
  · exact ⟨toString unit ++ "_" ++ toString count, by simp only [String.append_assoc]⟩

/-- The stem of a temporary of a field access is told by any name that begins as it does. -/
theorem access_stem_inj {one two : Nat} {other rest more : String} (isStem : stem ∈ accessStems)
    (isOther : other ∈ accessStems)
    (same : named unit stem one ++ rest = named unit other two ++ more) : stem = other := by
  have areStems : ∀ stem ∈ accessStems, stem ++ "_" ∈ stems := by decide
  obtain ⟨tail, first⟩ := @exists_tail stem unit one
  obtain ⟨ending, second⟩ := @exists_tail other unit two
  rw [first, second] at same
  exact (String.append_left_inj _).1
    (@stem_inj _ _ (tail ++ rest) (ending ++ more) (areStems stem isStem) (areStems other isOther)
      (by simpa only [String.append_assoc] using same))

/-- What is handed out and begins like a temporary of a field access is an earlier one with its
stem. -/
theorem Drawn.exists_earlier {count : Nat} {rest : String} (isStem : stem ∈ accessStems)
    (drawn : temporaries.Drawn (named temporaries.unit stem count ++ rest)) :
    ∃ earlier < temporaries.count stem,
      named temporaries.unit stem count ++ rest = named temporaries.unit stem earlier := by
  obtain ⟨other, isOther, earlier, before, same⟩ | ⟨position, same⟩ := drawn
  · obtain rfl : stem = other :=
      @access_stem_inj _ _ _ _ other rest "" isStem isOther (by simpa using same)
    exact ⟨earlier, before, same⟩
  · have apart : ∀ stem ∈ accessStems, stem ++ "_" ∈ stems ∧ stem ++ "_" ≠ "__call" := by decide
    obtain ⟨tail, named⟩ := @exists_tail stem temporaries.unit count
    rw [named, argument] at same
    exact absurd (@stem_inj _ _ (tail ++ rest)
      (toString temporaries.unit ++ "_" ++ toString position) (apart stem isStem).1 (by decide)
      (by simpa only [String.append_assoc] using same)) (apart stem isStem).2

/-- The next temporary with a stem has not been handed out. -/
theorem not_drawn_named (isStem : stem ∈ accessStems) :
    ¬ temporaries.Drawn (named temporaries.unit stem (temporaries.count stem)) := by
  intro drawn
  obtain ⟨earlier, before, same⟩ := @Drawn.exists_earlier _ stem _ "" isStem (by simpa using drawn)
  rw [String.append_empty] at same
  have counts := named_inj same
  omega

/-- Nor has the name of a slot that is named after it. -/
theorem not_drawn_slot {index : Nat} (isStem : stem ∈ accessStems) :
    ¬ temporaries.Drawn
      (named temporaries.unit stem (temporaries.count stem) ++ "_" ++ toString index) := by
  intro drawn
  rw [String.append_assoc] at drawn
  obtain ⟨earlier, before, same⟩ := drawn.exists_earlier isStem
  rw [← String.append_assoc] at same
  exact named_ne_slot before same.symm

end Temporaries

/-! ## Arguments -/

namespace Method

variable {method : Method} {name : String}

/-- Each incoming parameter stands for a source of the method. -/
theorem exists_paramAt {param : Param} (member : param ∈ method.incoming) :
    ∃ source type, param = method.paramAt source type := by
  rcases List.mem_append.1 member with this | others
  · split at this
    · cases this
    · exact ⟨_, _, List.mem_singleton.1 this⟩
  · obtain ⟨entry, -, rfl⟩ := List.mem_map.1 others
    exact ⟨_, _, rfl⟩

/-- The arguments have stems of their own. -/
theorem exists_stem_of_incoming (member : name ∈ method.incomingNames) :
    ∃ stem ∈ ["__this", "__in_", "__arg"], ∃ rest, name = stem ++ rest := by
  obtain ⟨param, among, rfl⟩ := List.mem_map.1 member
  obtain ⟨source, type, rfl⟩ := exists_paramAt among
  unfold paramAt
  dsimp only
  split
  · exact ⟨"__this", by simp, "", by simp⟩
  · exact ⟨"__in_", by simp, _, rfl⟩
  · exact ⟨"__arg", by simp, _, rfl⟩

/-- No two parameters are copied into one local. -/
def TakesApart (method : Method) : Prop :=
  ∀ one two : UInt64, one.toNat < method.params.length → two.toNat < method.params.length →
    ∀ name, method.argumentLocals.get? (.param one) = some name →
      method.argumentLocals.get? (.param two) = some name → one = two

/-- The name of the argument for a parameter. -/
def argumentName (method : Method) (index : UInt64) : String :=
  match method.argumentLocals.get? (.param index) with
  | some target => "__in_" ++ target
  | none => "__arg" ++ toString index.toNat

/-- A parameter has the name of its argument. -/
theorem name_paramAt {index : UInt64} {type : Ty} :
    (method.paramAt (.param index) type).name = method.argumentName index := by
  unfold paramAt argumentName
  cases method.argumentLocals.get? (.param index) <;> rfl

/-- The incoming names are that of the receiver, if there is one, and those of the parameters. -/
theorem incomingNames_eq : method.incomingNames = (if method.isStatic then [] else ["__this"]) ++
    (List.range method.params.length).map fun index => method.argumentName index.toUInt64 := by
  have ofParams : (method.params.zipIdx.map fun entry =>
        method.paramAt (.param entry.2.toUInt64) entry.1).map Param.name =
      (List.range method.params.length).map fun index => method.argumentName index.toUInt64 := by
    rw [List.range_eq_range', ← List.zipIdx_map_snd, List.map_map, List.map_map]
    exact List.map_congr_left fun entry _ => name_paramAt
  rw [incomingNames, incoming, List.map_append]
  refine congrArg₂ (· ++ ·) ?_ ofParams
  split <;> rfl

/-- Arguments have one name only if they are copied into one local. -/
theorem argumentName_inj {one two : UInt64}
    (same : method.argumentName one = method.argumentName two) : one = two ∨
      ∃ name, method.argumentLocals.get? (.param one) = some name ∧
        method.argumentLocals.get? (.param two) = some name := by
  have named : "__in_" ∈ stems := by decide
  have numbered : "__arg" ∈ stems := by decide
  unfold argumentName at same
  split at same
  · next name found =>
    split at same
    · next other isOther =>
      obtain rfl := (String.append_right_inj _).1 same
      exact .inr ⟨name, found, isOther⟩
    · exact absurd (stem_inj named numbered same) (by decide)
  · split at same
    · exact absurd (stem_inj numbered named same) (by decide)
    · exact .inl (UInt64.toNat_inj.1 (toString_inj ((String.append_right_inj _).1 same)))

/-- The arguments of a method's function have different names if and only if no two parameters are
copied into one local. -/
theorem nodup_incomingNames_iff (few : method.params.length ≤ UInt64.size) :
    method.incomingNames.Nodup ↔ method.TakesApart := by
  have own : (if method.isStatic then [] else ["__this"]).Nodup := by
    split <;> simp
  have apart : List.Disjoint (if method.isStatic then [] else ["__this"])
      ((List.range method.params.length).map fun index =>
        method.argumentName index.toUInt64) := by
    intro name isThis member
    obtain ⟨index, -, rfl⟩ := List.mem_map.1 member
    have this : method.argumentName index.toUInt64 = "__this" ++ "" := by
      split at isThis
      · cases isThis
      · exact List.mem_singleton.1 isThis
    unfold argumentName at this
    split at this
    · exact absurd (stem_inj (by decide) (by decide) this) (by decide)
    · exact absurd (stem_inj (by decide) (by decide) this) (by decide)
  have inside {index : Nat} (member : index ∈ List.range method.params.length) :
      index.toUInt64.toNat = index :=
    UInt64.toNat_ofNat_of_lt' (Nat.lt_of_lt_of_le (List.mem_range.1 member) few)
  rw [incomingNames_eq, List.nodup_append']
  constructor
  · rintro ⟨-, distinct, -⟩ one two isOne isTwo name found other
    have names : method.argumentName one = method.argumentName two := by
      rw [argumentName, found, argumentName, other]
    refine UInt64.toNat_inj.1 (List.inj_on_of_nodup_map distinct (List.mem_range.2 isOne)
      (List.mem_range.2 isTwo) ?_)
    simpa using names
  · intro takesApart
    refine ⟨own, List.nodup_range.map_on fun one isOne two isTwo same => ?_, apart⟩
    have indices : one.toUInt64 = two.toUInt64 := by
      obtain here | ⟨name, found, other⟩ := argumentName_inj same
      · exact here
      · refine takesApart _ _ ?_ ?_ name found other
        · rw [inside isOne]
          exact List.mem_range.1 isOne
        · rw [inside isTwo]
          exact List.mem_range.1 isTwo
    rw [← inside isOne, indices, inside isTwo]

end Method

end GotoFree
