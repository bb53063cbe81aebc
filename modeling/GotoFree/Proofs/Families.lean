import Mathlib.Order.Bounds.Basic
import GotoFree.Proofs.Safety

/-!
# Families of classes

The families of a layout are the classes that sets of the program link, and the rows of a class are
as wide as the widest class linked with it needs (`Layout.uniform_ofProgram`). So all classes of a
set that makes a family have rows of one width. The sets in the conditions of branches make none,
and their classes may have rows of different widths or none at all (`Layout.not_uniform_testing`).
-/

namespace GotoFree

open Relation

/-! ## The sets of an instruction -/

/-- The set of classes that an expression expects. -/
def Expr.classSet? : Expr → Option (SortedSet String)
  | .fieldRead _ _ possibleTypes => some possibleTypes
  | .call site => some site.possibleReceivers
  | .use _ | .binary .. | .unary .. | .arrayRead .. | .arrayLength _ | .new _ | .newArray ..
  | .nondet | .cast .. | .unmodelled .. => none

/-- The set of classes that a place expects. -/
def Place.classSet? : Place → Option (SortedSet String)
  | .field _ _ possibleTypes => some possibleTypes
  | .var _ | .arrayElement .. => none

namespace Instr

/-- All sets of classes that an instruction expects, those in the condition of a branch too. -/
def expectedSets : Instr → List (SortedSet String)
  | .assign target value => target.classSet?.toList ++ value.classSet?.toList
  | .branch condition => condition.classSet?.toList
  | .call site => [site.possibleReceivers]
  | .identity .. | .goto | .ret _ | .nop _ | .throw _ | .aliased .. => []

/-- The sets of an instruction that make families: those of a branch do not. -/
theorem classSets_eq (instr : Instr) : instr.classSets =
    if instr.isBranch then [] else instr.expectedSets.filter fun set => !set.isEmpty := by
  cases instr with
  | assign target value => cases target <;> cases value <;> rfl
  | identity | branch | goto | ret | call | nop | throw | aliased => rfl

end Instr

/-! ## Classes linked by sets -/

/-- Two classes stand together in one of some sets. -/
def Together (sets : List (SortedSet String)) (first second : String) : Prop :=
  ∃ set ∈ sets, first ∈ set ∧ second ∈ set

/-- Two classes are linked by sets that the instructions of a program expect. -/
def Program.Linked (program : Program) : String → String → Prop :=
  ReflTransGen (Together program.classSets)

namespace Layout

/-- The families that some sets make: each set lies in one of them, families share no class, and the
classes of a family are linked by the sets. -/
structure AreFamilies (sets families : List (SortedSet String)) : Prop where
  covered : ∀ set ∈ sets, ∃ family ∈ families, ∀ className ∈ set, className ∈ family
  apart : families.Pairwise fun first second => ∀ className ∈ first, className ∉ second
  linked : ∀ family ∈ families, ∀ first ∈ family, ∀ second ∈ family,
    ReflTransGen (Together sets) first second

namespace AreFamilies

variable {sets families : List (SortedSet String)}

/-- No sets make no families. -/
theorem nil : AreFamilies [] [] := ⟨by simp, .nil, by simp⟩

/-- Families that share a class are the same. -/
theorem eq_of_mem (areFamilies : AreFamilies sets families) {first second : SortedSet String}
    (left : first ∈ families) (right : second ∈ families) {className : String}
    (inFirst : className ∈ first) (inSecond : className ∈ second) : first = second :=
  eq_of_pairwise_not (areFamilies.apart.imp fun apart => apart className) left right
    inFirst inSecond

/-- One more set joins the families that it touches. -/
theorem join (areFamilies : AreFamilies sets families) (set : SortedSet String) :
    AreFamilies (sets ++ [set]) (joinFamily families set) := by
  have touched {family : SortedSet String} : (family.toList.any (· ∈ set)) = true ↔
      ∃ className ∈ family, className ∈ set := by
    simp [SortedSet.mem_toList]
  have mem_joined {className : String} : className ∈ (SortedSet.unionAll (families.filter
      fun family => family.toList.any (· ∈ set))).union set ↔
      className ∈ set ∨ ∃ family ∈ families, className ∈ family ∧
        ∃ shared ∈ family, shared ∈ set := by
    simp only [SortedSet.mem_union, SortedSet.mem_unionAll, List.mem_filter, touched]
    constructor
    · rintro (⟨family, ⟨known, shares⟩, here⟩ | here)
      · exact .inr ⟨family, known, here, shares⟩
      · exact .inl here
    · rintro (here | ⟨family, known, here, shares⟩)
      · exact .inr here
      · exact .inl ⟨family, ⟨known, shares⟩, here⟩
  have more {first second : String} (path : ReflTransGen (Together sets) first second) :
      ReflTransGen (Together (sets ++ [set])) first second := by
    refine ReflTransGen.mono (fun _ _ step => ?_) _ _ path
    obtain ⟨other, among, both⟩ := step
    exact ⟨other, List.mem_append_left _ among, both⟩
  refine ⟨fun other member => ?_, .cons (fun family member className here there => ?_)
    (areFamilies.apart.filter _), fun family member first here second there => ?_⟩
  · rcases List.mem_append.1 member with earlier | last
    · obtain ⟨family, known, holds⟩ := areFamilies.covered other earlier
      by_cases shares : ∃ className ∈ family, className ∈ set
      · exact ⟨_, List.mem_cons_self, fun className here =>
          mem_joined.2 (.inr ⟨family, known, holds className here, shares⟩)⟩
      · refine ⟨family, List.mem_cons_of_mem _ (List.mem_filter.2 ⟨known, ?_⟩), holds⟩
        simpa using mt touched.1 shares
    · obtain rfl := List.mem_singleton.1 last
      exact ⟨_, List.mem_cons_self, fun className here => mem_joined.2 (.inl here)⟩
  · obtain ⟨known, free⟩ := List.mem_filter.1 member
    have away : ¬ ∃ className ∈ family, className ∈ set := fun shares => by
      simp [touched.2 shares] at free
    rcases mem_joined.1 here with inSet | ⟨joined, isJoined, inJoined, shares⟩
    · exact away ⟨className, there, inSet⟩
    · exact away (areFamilies.eq_of_mem isJoined known inJoined there ▸ shares)
  · rcases List.mem_cons.1 member with rfl | kept
    · -- Both ways between a class of the joined family and a class of the new set.
      have toSet {className : String} (here : className ∈ (SortedSet.unionAll (families.filter
          fun family => family.toList.any (· ∈ set))).union set) : ∃ shared ∈ set,
          ReflTransGen (Together (sets ++ [set])) className shared ∧
            ReflTransGen (Together (sets ++ [set])) shared className := by
        rcases mem_joined.1 here with inSet | ⟨family, known, inFamily, shared, shares, inSet⟩
        · exact ⟨className, inSet, .refl, .refl⟩
        · exact ⟨shared, inSet,
            more (areFamilies.linked family known className inFamily shared shares),
            more (areFamilies.linked family known shared shares className inFamily)⟩
      obtain ⟨one, inOne, path, -⟩ := toSet here
      obtain ⟨two, inTwo, -, back⟩ := toSet there
      have step : Together (sets ++ [set]) one two := ⟨set, by simp, inOne, inTwo⟩
      exact (path.tail step).trans back
    · exact more (areFamilies.linked family (List.mem_of_mem_filter kept) first here second there)

/-- Joining one set after the other keeps the families of all. -/
theorem foldl_join (areFamilies : AreFamilies sets families) (others : List (SortedSet String)) :
    AreFamilies (sets ++ others) (others.foldl joinFamily families) := by
  induction others generalizing sets families with
  | nil => simpa using areFamilies
  | cons set rest ih => simpa using ih (areFamilies.join set)

/-- The family of a class holds the classes linked with it. -/
theorem mem_family_iff (areFamilies : AreFamilies sets families) {className other : String} :
    other ∈ (families.find? (className ∈ ·)).getD (SortedSet.singleton className) ↔
      ReflTransGen (Together sets) className other := by
  cases found : families.find? (className ∈ ·) with
  | none =>
      have alone : ∀ family ∈ families, className ∉ family := by
        simpa using List.find?_eq_none.1 found
      rw [Option.getD_none, SortedSet.mem_singleton]
      refine ⟨fun same => same ▸ .refl, fun path => ?_⟩
      rcases ReflTransGen.cases_head path with same | ⟨_, ⟨set, among, here, -⟩, -⟩
      · exact same.symm
      · obtain ⟨family, known, holds⟩ := areFamilies.covered set among
        exact absurd (holds className here) (alone family known)
  | some family =>
      have known := List.mem_of_find?_eq_some found
      have here : className ∈ family := by simpa using List.find?_some found
      refine ⟨areFamilies.linked family known className here other, fun path => ?_⟩
      induction path with
      | refl => exact here
      | tail _ step ih =>
          obtain ⟨set, among, before, after⟩ := step
          obtain ⟨next, isNext, holds⟩ := areFamilies.covered set among
          have within : _ ∈ family := ih
          exact areFamilies.eq_of_mem isNext known (holds _ before) within ▸ holds _ after

end AreFamilies

/-- The families of a program are those that its sets make. -/
theorem areFamilies_families (program : Program) :
    AreFamilies program.classSets (families program) := by
  simpa [families] using AreFamilies.nil.foldl_join program.classSets

/-! ## Widths -/

/-- The largest number of a list is in it, or nothing is above the start. -/
theorem foldl_max_mem (list : List Nat) (start : Nat) :
    list.foldl max start = start ∨ list.foldl max start ∈ list := by
  rw [List.foldl_max]
  cases greatest : list.max? with
  | none => simp
  | some number =>
      rw [Option.getD_some]
      rcases Nat.le_total start number with below | above
      · rw [Nat.max_eq_right below]
        exact .inr (List.max?_mem greatest)
      · exact .inl (Nat.max_eq_left above)

/-- The widths that classes linked with a class need. -/
def widthsAround (program : Program) (layout : Layout) (className : String) : Set Nat :=
  { width | ∃ other, program.Linked className other ∧ width = ownWidth layout.fields other }

/-- A family is as wide as the widest of its classes. -/
theorem isGreatest_familyWidth (program : Program) (layout : Layout) (className : String) :
    IsGreatest (widthsAround program layout className)
      (familyWidth (families program) layout.fields className) := by
  have mem_family (other : String) :
      other ∈ ((families program).find? (className ∈ ·)).getD (.singleton className) ↔
        program.Linked className other :=
    (areFamilies_families program).mem_family_iff
  unfold familyWidth
  generalize (((families program).find? (className ∈ ·)).getD (.singleton className)) = family at *
  have listed {width : Nat} : width ∈ family.toList.map (ownWidth layout.fields) ↔
      width ∈ widthsAround program layout className := by
    refine List.mem_map.trans (exists_congr fun other => ?_)
    rw [SortedSet.mem_toList, mem_family, eq_comm]
  refine ⟨?_, fun width member => le_foldl_max (.inl (listed.2 member))⟩
  rcases foldl_max_mem (family.toList.map (ownWidth layout.fields)) 0 with zero | member
  · -- The class itself needs room for a tag.
    have own : ownWidth layout.fields className ∈ family.toList.map (ownWidth layout.fields) :=
      listed.2 ⟨className, .refl, rfl⟩
    have enough : ownWidth layout.fields className ≤
        (family.toList.map (ownWidth layout.fields)).foldl max 0 := le_foldl_max (.inl own)
    rw [zero, ownWidth] at enough
    omega
  · exact listed.1 member

/-- The fields and widths of a layout are those of the classes that the program stores. -/
theorem of_ofProgram {program : Program} {layout : Layout}
    (made : ofProgram program = .ok layout) (className : String) :
    ((∃ fields, layout.fields.get? className = some fields) ↔
      className ∈ program.storedClasses) ∧
    ∀ width, layout.width? className = some width ↔ className ∈ program.storedClasses ∧
      width = familyWidth (families program) layout.fields className := by
  obtain ⟨listed, steps, made⟩ := bind_eq_ok_iff.1 made
  cases made
  have names : listed.map Prod.fst = program.storedClasses.toList := by
    have related := mapM_eq_ok_iff.1 steps
    clear steps made
    generalize program.storedClasses.toList = classes at related
    induction related with
    | nil => rfl
    | cons here _ ih =>
        obtain ⟨fields, -, same⟩ := bind_eq_ok_iff.1 here
        cases same
        rw [List.map_cons, ih]
  have distinct : (listed.map Prod.fst).Nodup := names ▸ program.storedClasses.nodup
  constructor
  · simp only [SortedMap.get?_ofList distinct]
    rw [← SortedSet.mem_toList, ← names]
    simp
  · intro width
    have distinctWidths : ((program.storedClasses.toList.map fun className =>
        (className, familyWidth (families program) (.ofList listed) className)).map
          Prod.fst).Nodup := by
      rw [List.map_map]
      exact (List.map_id _).symm ▸ program.storedClasses.nodup
    refine (SortedMap.get?_ofList distinctWidths).trans ?_
    simp only [List.mem_map, Prod.mk.injEq]
    constructor
    · rintro ⟨other, member, rfl, rfl⟩
      exact ⟨member, rfl⟩
    · rintro ⟨member, rfl⟩
      exact ⟨className, member, rfl, rfl⟩

/-- The classes of points-to sets are stored. -/
theorem mem_storedClasses_of_classSets {program : Program} {set : SortedSet String}
    (among : set ∈ program.classSets) {className : String} (here : className ∈ set) :
    className ∈ program.storedClasses := by
  have listed : className ∈ program.classSets.flatMap SortedSet.toList :=
    List.mem_flatMap.2 ⟨set, among, here⟩
  simp [Program.storedClasses, listed]

/-- The classes of a set need the same widths around them. -/
theorem widthsAround_eq {program : Program} {layout : Layout} {set : SortedSet String}
    (among : set ∈ program.classSets) {first second : String} (inFirst : first ∈ set)
    (inSecond : second ∈ set) :
    widthsAround program layout first = widthsAround program layout second := by
  have step : Together program.classSets first second := ⟨set, among, inFirst, inSecond⟩
  have back : Together program.classSets second first := ⟨set, among, inSecond, inFirst⟩
  refine Set.Subset.antisymm ?_ ?_
  · rintro _ ⟨other, path, rfl⟩
    exact ⟨other, .head back path, rfl⟩
  · rintro _ ⟨other, path, rfl⟩
    exact ⟨other, .head step path, rfl⟩

/-- All classes of a set have a layout, with rows of one width. -/
def Uniform (layout : Layout) (set : SortedSet String) : Prop :=
  ∃ width, ∀ className ∈ set, (∃ fields, layout.fields.get? className = some fields) ∧
    layout.width? className = some width

/-- The layout of a program gives each stored class rows as wide as the widest class linked with it
needs. So the classes of every set that an instruction other than a branch expects have rows of one
width. -/
theorem uniform_ofProgram {program : Program} {layout : Layout}
    (made : ofProgram program = .ok layout) :
    (∀ className width, layout.width? className = some width ↔
      className ∈ program.storedClasses ∧
        IsGreatest (widthsAround program layout className) width) ∧
      ∀ instr ∈ program.instrs, instr.isBranch = false →
        ∀ set ∈ instr.expectedSets, layout.Uniform set := by
  have exact (className : String) (width : Nat) : layout.width? className = some width ↔
      className ∈ program.storedClasses ∧
        IsGreatest (widthsAround program layout className) width := by
    have greatest := isGreatest_familyWidth program layout className
    rw [(of_ofProgram made className).2 width]
    refine and_congr_right fun _ => ⟨fun same => same ▸ greatest, fun other => ?_⟩
    exact other.unique greatest
  refine ⟨exact, fun instr member straight set expected => ?_⟩
  cases first : set.min? with
  | none =>
      have empty {className : String} (here : className ∈ set) : False := by
        simpa [first] using SortedSet.min?_isSome_iff.2 ⟨className, here⟩
      exact ⟨0, fun className here => (empty here).elim⟩
  | some leader =>
      have leads := SortedSet.mem_of_min? first
      have nonempty : set.isEmpty = false := by
        rw [← Bool.not_eq_true, SortedSet.isEmpty_iff]
        exact fun none => none leader leads
      have among : set ∈ program.classSets := by
        refine List.mem_flatMap.2 ⟨instr, member, ?_⟩
        rw [Instr.classSets_eq, straight]
        exact List.mem_filter.2 ⟨expected, by simp [nonempty]⟩
      refine ⟨familyWidth (families program) layout.fields leader, fun className here => ?_⟩
      have stored := mem_storedClasses_of_classSets among here
      refine ⟨(of_ofProgram made className).1.2 stored, (exact _ _).2 ⟨stored, ?_⟩⟩
      rw [widthsAround_eq among here leads]
      exact isGreatest_familyWidth program layout leader

/-- A method with one instruction after an allocation, and a class with a subclass. -/
def accessingProgram (access : Instr) : Program where
  classes := [⟨"A", none, [⟨"f", .bool⟩]⟩, ⟨"B", some "A", [⟨"g", .int⟩]⟩]
  methods := .ofList [
    (.plain "Main" "main", {
      className := "Main"
      name := "main"
      isStatic := true
      params := []
      returnType := .void
      locals := [⟨"o", .ref "A"⟩, ⟨"b", .bool⟩]
      entry := ⟨0⟩
      blocks := [
        ⟨⟨0⟩, [.assign (.var "o") (.new "B"), access], List.replicate access.fanOut ⟨1⟩⟩,
        ⟨⟨1⟩, [.ret none], []⟩]
      plan := none })]
  entry := .plain "Main" "main"

/-- Reads a field of an object of either class. -/
def readEither : Expr := .fieldRead "o" ⟨"A", "f"⟩ (.ofList ["A", "B"])

/-- A method that reads from either of two classes gives both one width. -/
theorem uniform_ofProgram_reading : ∃ layout,
    ofProgram (accessingProgram (.assign (.var "b") readEither)) = .ok layout ∧
      layout.Uniform (.ofList ["A", "B"]) ∧ layout.width? "A" = some 3 := by
  have widths : (ofProgram (accessingProgram (.assign (.var "b") readEither))).toOption.map
      (·.width? "A") = some (some 3) := by
    decide
  cases made : ofProgram (accessingProgram (.assign (.var "b") readEither)) with
  | error => simp [made, Except.toOption] at widths
  | ok layout =>
      rw [made] at widths
      have listed : Instr.assign (.var "b") readEither ∈
          (accessingProgram (.assign (.var "b") readEither)).instrs := by
        decide
      refine ⟨layout, rfl, ?_, Option.some.inj widths⟩
      exact (uniform_ofProgram made).2 _ listed rfl _ (by simp [Instr.expectedSets, readEither,
        Place.classSet?, Expr.classSet?])

/-- The set in the condition of a branch makes no family, so the rows of its classes may differ. -/
theorem not_uniform_testing : ∃ layout,
    ofProgram (accessingProgram (.branch readEither)) = .ok layout ∧
      ∃ instr ∈ (accessingProgram (.branch readEither)).instrs, ∃ set ∈ instr.expectedSets,
        ¬ layout.Uniform set := by
  have widths : (ofProgram (accessingProgram (.branch readEither))).toOption.map
      (fun layout => (layout.width? "A", layout.width? "B")) = some (some 2, some 3) := by
    decide
  cases made : ofProgram (accessingProgram (.branch readEither)) with
  | error => simp [made, Except.toOption] at widths
  | ok layout =>
      rw [made] at widths
      obtain ⟨narrow, wide⟩ := Prod.mk.inj (Option.some.inj widths)
      have listed : Instr.branch readEither ∈ (accessingProgram (.branch readEither)).instrs := by
        decide
      refine ⟨layout, rfl, _, listed, .ofList ["A", "B"], by simp [Instr.expectedSets, readEither,
        Expr.classSet?], fun ⟨width, rows⟩ => ?_⟩
      have first := (rows "A" (SortedSet.mem_ofList.2 (by simp))).2
      have second := (rows "B" (SortedSet.mem_ofList.2 (by simp))).2
      rw [narrow, Option.some.injEq] at first
      rw [wide, Option.some.injEq] at second
      omega

end Layout

end GotoFree
