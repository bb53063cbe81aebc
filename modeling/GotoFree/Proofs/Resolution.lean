import GotoFree.Program
import GotoFree.Proofs.Names
import Mathlib.Data.Finset.Card
import Mathlib.Data.Nat.Find

/-!
# The method that runs for a receiver

The walk up from a class ends in every class table (`Program.exists_walks`), and lists the classes
above the class, nearest first. Among them a call runs the method of the nearest class that has an
instance method of its own and does not hide it behind a static one, which is that of the nearest
class with an instance method unless this class hides it (`Program.resolve_nearest_iff`).
-/

namespace GotoFree

/-! ## Names of methods -/

/-- A list that goes on behind a mark does not end with the mark and what stood behind it. -/
theorem append_cons_ne_of_notMem {α : Type} [DecidableEq α] {mark : α}
    {front back name ending : List α} (free : mark ∉ ending) (more : ending ≠ []) :
    front ++ mark :: name ≠ back ++ (mark :: name ++ ending) := by
  intro same
  have positive := List.length_pos_of_ne_nil more
  have lengths := congrArg List.length same
  have counts := congrArg (List.count mark) same
  simp only [List.length_append, List.length_cons] at lengths
  simp only [List.count_append, List.count_cons_self, List.count_eq_zero.2 free] at counts
  rcases List.append_eq_append_iff.1 same with ⟨between, rfl, -⟩ | ⟨between, rfl, rest⟩
  · rw [List.length_append] at lengths
    omega
  · -- What the fronts differ in begins with the mark, but has as many of them as the ending.
    cases between with
    | nil =>
        rw [List.append_nil] at lengths
        omega
    | cons first others =>
        obtain ⟨rfl, -⟩ := List.cons.inj rest
        rw [List.count_append, List.count_cons_self] at counts
        omega

namespace MethodId

variable {className other name : String} {arity : Nat} {id : MethodId}

/-- The names under which a class lists a method. -/
def names (className name : String) (arity : Nat) : List MethodId :=
  [plain className name, overloaded className name arity]

theorem toList_plain :
    (plain className name).text.toList = className.toList ++ '.' :: name.toList := by
  simp [plain]

theorem toList_overloaded : (overloaded className name arity).text.toList =
    className.toList ++ ('.' :: name.toList ++ '/' :: digits arity) := by
  simp [overloaded, ← toList_toString]

theorem plain_ne_overloaded : plain className name ≠ overloaded other name arity := by
  intro same
  have lists := congrArg (fun id => id.text.toList) same
  simp only [toList_plain, toList_overloaded] at lists
  refine append_cons_ne_of_notMem (fun member => ?_) (List.cons_ne_nil _ _) lists
  rcases List.mem_cons.1 member with same | isDigit
  · exact absurd same (by decide)
  · exact absurd (isDigit_of_mem_digits isDigit) (by decide)

/-- The names of a method in different classes are different. -/
theorem class_inj (one : id ∈ names className name arity) (two : id ∈ names other name arity) :
    className = other := by
  simp only [names, List.mem_cons, List.not_mem_nil, or_false] at one two
  rcases one with rfl | rfl <;> rcases two with same | same
  · exact (String.append_left_inj _).1 ((String.append_left_inj _).1 (congrArg text same))
  · exact absurd same plain_ne_overloaded
  · exact absurd same.symm plain_ne_overloaded
  · have lists := congrArg (fun id => id.text.toList) same
    simp only [toList_overloaded, List.append_cancel_right_eq] at lists
    exact String.toList_inj.1 lists

end MethodId

namespace Program

variable {program : Program} {className name : String} {arity : Nat} {id : MethodId}

/-! ## The way up -/

/-- The class that stands some steps above a class. -/
def above? (program : Program) : Nat → String → Option String
  | 0, className => some className
  | steps + 1, className => (program.superclass? className).bind (program.above? steps)

/-- The walk up from a class lists some classes: it ends at a class without a superclass, or before
a class that it has met. -/
inductive Walks (program : Program) : List String → String → List String → Prop where
  | again {met : List String} {className : String} (known : className ∈ met) :
      Walks program met className []
  | top {met : List String} {className : String} (fresh : className ∉ met)
      (none : program.superclass? className = none) : Walks program met className [className]
  | under {met classes : List String} {className parent : String} (fresh : className ∉ met)
      (up : program.superclass? className = some parent)
      (above : Walks program (className :: met) parent classes) :
      Walks program met className (className :: classes)

/-- The declared classes that a walk has not met. -/
def unmet (program : Program) (met : List String) : Finset String :=
  (program.classes.map ClassDecl.name).toFinset.filter (· ∉ met)

theorem card_unmet_le {met : List String} : (program.unmet met).card ≤ program.classes.length :=
  (Finset.card_filter_le _ _).trans
    ((List.toFinset_card_le _).trans_eq (List.length_map ClassDecl.name))

theorem mem_names_of_superclass? {parent : String}
    (up : program.superclass? className = some parent) :
    className ∈ program.classes.map ClassDecl.name := by
  obtain ⟨decl, found, -⟩ := Option.bind_eq_some_iff.1 up
  have named : decl.name = className := by simpa using List.find?_some found
  exact List.mem_map.2 ⟨decl, List.mem_of_find?_eq_some found, named⟩

/-- A class with a superclass is one class less to be met. -/
theorem card_unmet_cons_lt {met : List String} {parent : String} (fresh : className ∉ met)
    (up : program.superclass? className = some parent) :
    (program.unmet (className :: met)).card < (program.unmet met).card := by
  refine Finset.card_lt_card ((Finset.ssubset_iff_of_subset ?_).2 ⟨className, ?_, ?_⟩)
  · intro other
    simp only [unmet, Finset.mem_filter, List.mem_cons, not_or]
    exact fun ⟨declared, _, fresh⟩ => ⟨declared, fresh⟩
  · exact Finset.mem_filter.2 ⟨List.mem_toFinset.2 (mem_names_of_superclass? up), fresh⟩
  · simp [unmet]

/-- Every walk ends, after one step more than there are declared classes to meet. -/
theorem exists_walks (met : List String) (className : String) : ∃ classes,
    program.Walks met className classes ∧ classes.length ≤ (program.unmet met).card + 1 := by
  induction left : (program.unmet met).card using Nat.strong_induction_on
    generalizing met className with
  | _ left ih =>
      by_cases known : className ∈ met
      · exact ⟨[], .again known, Nat.zero_le _⟩
      · cases up : program.superclass? className with
        | none => exact ⟨[className], .top known up, Nat.le_add_left _ _⟩
        | some parent =>
            have fewer := left ▸ card_unmet_cons_lt known up
            obtain ⟨classes, walks, short⟩ := ih _ fewer (className :: met) parent rfl
            refine ⟨className :: classes, .under known up walks, ?_⟩
            rw [List.length_cons]
            omega

namespace Walks

variable {met classes : List String}

/-- With steps enough, climbing is walking. -/
theorem climb_eq (walks : program.Walks met className classes) {steps : Nat}
    (enough : classes.length ≤ steps) : program.climb steps met className = classes := by
  induction walks generalizing steps with
  | again known => cases steps <;> simp [climb, known]
  | top fresh none =>
      cases steps with
      | zero => simp at enough
      | succ steps => simp [climb, fresh, none]
  | under fresh up _ ih =>
      cases steps with
      | zero => simp at enough
      | succ steps => simp [climb, fresh, up, ih (Nat.le_of_succ_le_succ enough)]

theorem above?_of_getElem? (walks : program.Walks met className classes) {steps : Nat}
    {other : String} (here : classes[steps]? = some other) :
    program.above? steps className = some other := by
  induction walks generalizing steps with
  | again => cases here
  | top =>
      cases steps with
      | zero => exact here
      | succ steps => cases here
  | under _ up _ ih =>
      cases steps with
      | zero => exact here
      | succ steps =>
          rw [above?, up, Option.bind_some]
          exact ih here

/-- A walk that goes on from where the classes met before led meets the superclass of each class
that it meets. -/
theorem closed (walks : program.Walks met className classes)
    (led : ∀ child ∈ met, ∀ parent, program.superclass? child = some parent →
      parent ∈ met ∨ parent = className) :
    className ∈ classes ++ met ∧ ∀ child ∈ classes ++ met, ∀ parent,
      program.superclass? child = some parent → parent ∈ classes ++ met := by
  induction walks with
  | again known =>
      refine ⟨known, fun child member parent up => ?_⟩
      rcases led child member parent up with again | rfl
      · exact again
      · exact known
  | top fresh none =>
      refine ⟨List.mem_cons_self, fun child member parent up => ?_⟩
      rcases List.mem_cons.1 member with rfl | earlier
      · cases none.symm.trans up
      · rcases led child earlier parent up with again | rfl
        · exact List.mem_cons_of_mem _ again
        · exact List.mem_cons_self
  | @under met classes className parent fresh up _ ih =>
      have same (other : String) :
          other ∈ classes ++ className :: met ↔ other ∈ className :: classes ++ met := by
        simp [or_left_comm]
      simp only [same] at ih
      refine ⟨List.mem_cons_self, (ih fun child member next isNext => ?_).2⟩
      rcases List.mem_cons.1 member with rfl | earlier
      · exact .inr (Option.some.inj (isNext.symm.trans up))
      · rcases led child earlier next isNext with again | rfl
        · exact .inl (List.mem_cons_of_mem _ again)
        · exact .inl List.mem_cons_self

end Walks

/-- What stands above a class is in every list that has the class and is closed under going up. -/
theorem mem_of_above? {classes : List String}
    (closed : ∀ child ∈ classes, ∀ parent, program.superclass? child = some parent →
      parent ∈ classes) {steps : Nat} {other : String} (member : className ∈ classes)
    (isAbove : program.above? steps className = some other) : other ∈ classes := by
  induction steps generalizing className with
  | zero =>
      cases isAbove
      exact member
  | succ steps ih =>
      obtain ⟨parent, up, later⟩ := Option.bind_eq_some_iff.1 isAbove
      exact ih (closed className member parent up) later

theorem walks_ancestry : program.Walks [] className (program.ancestry className) := by
  obtain ⟨classes, walks, short⟩ := program.exists_walks [] className
  rw [ancestry, walks.climb_eq]
  · exact walks
  · exact short.trans (Nat.succ_le_succ card_unmet_le)

/-- More steps lead nowhere else. -/
theorem climb_eq_ancestry (more : Nat) :
    program.climb (program.classes.length + 1 + more) [] className =
      program.ancestry className := by
  obtain ⟨classes, walks, short⟩ := program.exists_walks [] className
  have enough : classes.length ≤ program.classes.length + 1 :=
    short.trans (Nat.succ_le_succ card_unmet_le)
  rw [ancestry, walks.climb_eq enough, walks.climb_eq (enough.trans (Nat.le_add_right _ _))]

theorem mem_ancestry_iff {other : String} :
    other ∈ program.ancestry className ↔ ∃ steps, program.above? steps className = some other := by
  constructor
  · intro member
    obtain ⟨steps, here⟩ := List.mem_iff_getElem?.1 member
    exact ⟨steps, walks_ancestry.above?_of_getElem? here⟩
  · rintro ⟨steps, isAbove⟩
    obtain ⟨start, closed⟩ := (@walks_ancestry program className).closed nofun
    simp only [List.append_nil] at start closed
    exact mem_of_above? closed start isAbove

/-- What is found first on the way up is found at the nearest class that has something. -/
theorem findSome?_ancestry {β : Type} {found : String → Option β} {value : β} :
    (program.ancestry className).findSome? found = some value ↔
      ∃ steps ancestor, program.above? steps className = some ancestor ∧
        found ancestor = some value ∧ ∀ fewer < steps, ∀ other,
          program.above? fewer className = some other → found other = none := by
  have first {value : β} (here : (program.ancestry className).findSome? found = some value) :
      ∃ steps ancestor, program.above? steps className = some ancestor ∧
        found ancestor = some value ∧ ∀ fewer < steps, ∀ other,
          program.above? fewer className = some other → found other = none := by
    obtain ⟨nearer, ancestor, further, list, isFound, none⟩ := List.findSome?_eq_some_iff.1 here
    have walks := list ▸ @walks_ancestry program className
    refine ⟨nearer.length, ancestor, walks.above?_of_getElem? (by simp), isFound, ?_⟩
    intro fewer less other isAbove
    have same := walks.above?_of_getElem? (List.getElem?_append_left less ▸
      List.getElem?_eq_getElem less)
    cases isAbove.symm.trans same
    exact none _ (List.getElem_mem less)
  refine ⟨first, ?_⟩
  rintro ⟨steps, ancestor, isAbove, isFound, none⟩
  cases here : (program.ancestry className).findSome? found with
  | none =>
      have missed := List.findSome?_eq_none_iff.1 here
      cases (missed ancestor (mem_ancestry_iff.2 ⟨steps, isAbove⟩)).symm.trans isFound
  | some other =>
      -- Of two nearest classes neither is nearer than the other one.
      obtain ⟨count, nearest, isNearest, isOther, noneNearer⟩ := first here
      rcases Nat.lt_trichotomy count steps with less | rfl | less
      · cases (none count less nearest isNearest).symm.trans isOther
      · cases isNearest.symm.trans isAbove
        exact isOther.symm.trans isFound
      · cases (noneNearer steps less ancestor isAbove).symm.trans isFound

theorem findSome?_ancestry_eq_none {β : Type} {found : String → Option β} :
    (program.ancestry className).findSome? found = none ↔
      ∀ steps ancestor, program.above? steps className = some ancestor → found ancestor = none := by
  simp only [List.findSome?_eq_none_iff, mem_ancestry_iff, forall_exists_index]
  exact forall_comm

/-! ## Instance methods -/

/-- A method of a program takes some number of arguments, with or without a receiver. -/
def HasMethod (program : Program) (id : MethodId) (arity : Nat) (isStatic : Bool) : Prop :=
  ∃ method, program.method? id = some method ∧ method.params.length = arity ∧
    method.isStatic = isStatic

instance {isStatic : Bool} : Decidable (program.HasMethod id arity isStatic) :=
  decidable_of_iff ((program.method? id).any fun method =>
      method.params.length = arity && method.isStatic == isStatic) <| by
    simp [HasMethod, Option.any_eq_true]

/-- A class has an instance method of a name and an arity itself, listed under its plain name or
under its name with the arity. -/
def Implements (program : Program) (className name : String) (arity : Nat) (id : MethodId) : Prop :=
  id ∈ MethodId.names className name arity ∧ program.HasMethod id arity false

instance : Decidable (program.Implements className name arity id) :=
  inferInstanceAs (Decidable (_ ∧ _))

/-- A class lists its instance method under the name with the arity, and a static one that takes as
many arguments under the plain name. -/
def Hides (program : Program) (className name : String) (arity : Nat) : Prop :=
  program.HasMethod (.plain className name) arity true ∧
    program.HasMethod (.overloaded className name arity) arity false

theorem any_hasMethod_iff :
    (program.method? id).any (fun method => method.params.length = arity) = true ↔
      ∃ isStatic, program.HasMethod id arity isStatic := by
  rw [Option.any_eq_true]
  constructor
  · rintro ⟨method, isMethod, params⟩
    exact ⟨method.isStatic, method, isMethod, of_decide_eq_true params, rfl⟩
  · rintro ⟨isStatic, method, isMethod, params, -⟩
    exact ⟨method, isMethod, decide_eq_true params⟩

theorem HasMethod.isStatic_inj {one other : Bool} (first : program.HasMethod id arity one)
    (second : program.HasMethod id arity other) : one = other := by
  obtain ⟨method, isMethod, -, rfl⟩ := first
  obtain ⟨again, isAgain, -, rfl⟩ := second
  cases isMethod.symm.trans isAgain
  rfl

/-- Of the methods that a class lists for a name and an arity the one under the plain name is looked
up, and taken if it has a receiver. -/
theorem instanceMethod_eq_some_iff : program.instanceMethod className name arity = some id ↔
    program.HasMethod id arity false ∧ (id = .plain className name ∨
      id = .overloaded className name arity ∧
        ∀ isStatic, ¬ program.HasMethod (.plain className name) arity isStatic) := by
  have isInstance (id : MethodId) :
      (program.method? id).any (fun method => method.params.length = arity) = true ∧
        (program.method? id).any (fun method => !method.isStatic) = true ↔
          program.HasMethod id arity false := by
    simp only [Option.any_eq_true]
    constructor
    · rintro ⟨⟨method, isMethod, params⟩, other, isOther, isInstance⟩
      cases isMethod.symm.trans isOther
      exact ⟨method, isMethod, of_decide_eq_true params, by simpa using isInstance⟩
    · rintro ⟨method, isMethod, params, isInstance⟩
      exact ⟨⟨method, isMethod, decide_eq_true params⟩, method, isMethod, by simp [isInstance]⟩
  unfold instanceMethod methodTaking
  rw [Option.filter_eq_some_iff, List.find?_cons, List.find?_singleton]
  split
  · next listed =>
    obtain ⟨isStatic, takes⟩ := any_hasMethod_iff.1 listed
    constructor
    · rintro ⟨⟨⟩, hasReceiver⟩
      exact ⟨(isInstance _).1 ⟨listed, hasReceiver⟩, .inl rfl⟩
    · rintro ⟨takes', rfl | ⟨-, unlisted⟩⟩
      · exact ⟨rfl, ((isInstance _).2 takes').2⟩
      · exact absurd takes (unlisted isStatic)
  · next unlisted =>
    have free (isStatic : Bool) : ¬ program.HasMethod (.plain className name) arity isStatic :=
      fun takes => by simp [any_hasMethod_iff.2 ⟨isStatic, takes⟩] at unlisted
    constructor
    · rintro ⟨found, hasReceiver⟩
      obtain ⟨listed, same⟩ := Option.ite_none_right_eq_some.1 found
      cases same
      exact ⟨(isInstance _).1 ⟨listed, hasReceiver⟩, .inr ⟨rfl, free⟩⟩
    · rintro ⟨takes, rfl | ⟨rfl, -⟩⟩
      · exact absurd takes (free false)
      · obtain ⟨listed, hasReceiver⟩ := (isInstance _).2 takes
        exact ⟨if_pos listed, hasReceiver⟩

/-- A class is found to have an instance method if it has one and does not hide it. -/
theorem exists_instanceMethod_iff : (∃ id, program.instanceMethod className name arity = some id) ↔
    (∃ id, program.Implements className name arity id) ∧ ¬ program.Hides className name arity := by
  simp only [instanceMethod_eq_some_iff, Implements, MethodId.names, List.mem_cons,
    List.not_mem_nil, or_false]
  constructor
  · rintro ⟨id, takes, rfl | ⟨rfl, unlisted⟩⟩
    · exact ⟨⟨_, .inl rfl, takes⟩, fun hides => nomatch takes.isStatic_inj hides.1⟩
    · exact ⟨⟨_, .inr rfl, takes⟩, fun hides => unlisted true hides.1⟩
  · rintro ⟨⟨id, rfl | rfl, takes⟩, visible⟩
    · exact ⟨_, takes, .inl rfl⟩
    · by_cases listed : program.HasMethod (.plain className name) arity false
      · exact ⟨_, listed, .inl rfl⟩
      · refine ⟨_, takes, .inr ⟨rfl, fun isStatic plain => ?_⟩⟩
        cases isStatic with
        | false => exact listed plain
        | true => exact visible ⟨plain, takes⟩

theorem implements_of_instanceMethod
    (found : program.instanceMethod className name arity = some id) :
    program.Implements className name arity id := by
  obtain ⟨takes, rfl | ⟨rfl, -⟩⟩ := instanceMethod_eq_some_iff.1 found
  · exact ⟨List.mem_cons_self, takes⟩
  · exact ⟨List.mem_cons_of_mem _ List.mem_cons_self, takes⟩

theorem instanceMethod_eq_none_iff : program.instanceMethod className name arity = none ↔
    ∀ id, program.Implements className name arity id → program.Hides className name arity := by
  rw [← not_iff_not, ← ne_eq, Option.ne_none_iff_exists', exists_instanceMethod_iff]
  push Not
  exact exists_and_right.symm

/-! ## Resolution -/

/-- A class is the nearest one on the way up from another class that has an instance method of a
name and an arity itself. -/
def IsNearest (program : Program) (className name : String) (arity : Nat) (ancestor : String) :
    Prop :=
  ∃ steps, program.above? steps className = some ancestor ∧
    (∃ id, program.Implements ancestor name arity id) ∧ ∀ fewer < steps, ∀ other,
      program.above? fewer className = some other → ∀ id, ¬ program.Implements other name arity id

/-- An answer is the instance method of the nearest class on the way up that has one, and there is
no answer only if no class on the way up has one. -/
def AnswersNearest (program : Program) (className name : String) (arity : Nat) :
    Option MethodId → Prop
  | some id => ∃ ancestor, program.IsNearest className name arity ancestor ∧
      program.Implements ancestor name arity id
  | none => ∀ steps ancestor, program.above? steps className = some ancestor →
      ∀ id, ¬ program.Implements ancestor name arity id

theorem IsNearest.unique {one other : String} (first : program.IsNearest className name arity one)
    (second : program.IsNearest className name arity other) : one = other := by
  obtain ⟨steps, isAbove, ⟨id, has⟩, none⟩ := first
  obtain ⟨count, isOther, ⟨id', has'⟩, noneNearer⟩ := second
  rcases Nat.lt_trichotomy steps count with less | rfl | less
  · exact absurd has (noneNearer steps less one isAbove id)
  · exact Option.some.inj (isAbove.symm.trans isOther)
  · exact absurd has' (none count less other isOther id')

theorem resolve_eq_some_iff : program.resolve className name arity = some id ↔
    ∃ steps ancestor, program.above? steps className = some ancestor ∧
      program.instanceMethod ancestor name arity = some id ∧ ∀ fewer < steps, ∀ other,
        program.above? fewer className = some other →
          program.instanceMethod other name arity = none :=
  findSome?_ancestry

theorem resolve_eq_none_iff : program.resolve className name arity = none ↔
    ∀ steps ancestor, program.above? steps className = some ancestor →
      ∀ id, program.Implements ancestor name arity id → program.Hides ancestor name arity := by
  simp only [resolve, findSome?_ancestry_eq_none, instanceMethod_eq_none_iff]

/-- The method that is found belongs to a class that does not hide it, and the classes before that
have no instance method or hide theirs. -/
theorem exists_of_resolve (found : program.resolve className name arity = some id) :
    ∃ steps ancestor, program.above? steps className = some ancestor ∧
      program.Implements ancestor name arity id ∧ ¬ program.Hides ancestor name arity ∧
      ∀ fewer < steps, ∀ other, program.above? fewer className = some other →
        ∀ id, program.Implements other name arity id → program.Hides other name arity := by
  obtain ⟨steps, ancestor, isAbove, here, none⟩ := resolve_eq_some_iff.1 found
  refine ⟨steps, ancestor, isAbove, implements_of_instanceMethod here,
    (exists_instanceMethod_iff.1 ⟨id, here⟩).2, fun fewer less other isOther => ?_⟩
  exact instanceMethod_eq_none_iff.1 (none fewer less other isOther)

theorem exists_isNearest {steps : Nat} {ancestor : String}
    (isAbove : program.above? steps className = some ancestor)
    (has : program.Implements ancestor name arity id) :
    ∃ nearest, program.IsNearest className name arity nearest := by
  classical
  have some : ∃ steps, ∃ ancestor, program.above? steps className = some ancestor ∧
      ∃ id, program.Implements ancestor name arity id := ⟨steps, ancestor, isAbove, id, has⟩
  obtain ⟨nearest, isNearest, owns⟩ := Nat.find_spec some
  refine ⟨nearest, Nat.find some, isNearest, owns, fun fewer less other isOther id owns => ?_⟩
  exact Nat.find_min some less ⟨other, isOther, id, owns⟩

/-- If the nearest class with an instance method does not hide it, this is the one that is found. -/
theorem answersNearest_resolve (visible : ∀ ancestor,
    program.IsNearest className name arity ancestor → ¬ program.Hides ancestor name arity) :
    program.AnswersNearest className name arity (program.resolve className name arity) := by
  cases found : program.resolve className name arity with
  | none =>
      intro steps ancestor isAbove id has
      obtain ⟨nearest, isNearest⟩ := exists_isNearest isAbove has
      have ⟨count, isAbove, ⟨own, owns⟩, _⟩ := isNearest
      exact visible nearest isNearest (resolve_eq_none_iff.1 found count nearest isAbove own owns)
  | some id =>
      obtain ⟨steps, ancestor, isAbove, has, -, hidden⟩ := exists_of_resolve found
      obtain ⟨nearest, isNearest⟩ := exists_isNearest isAbove has
      have ⟨count, isOther, ⟨own, owns⟩, noneNearer⟩ := isNearest
      refine ⟨ancestor, ?_, has⟩
      rcases Nat.lt_trichotomy count steps with less | rfl | less
      · exact absurd (hidden count less nearest isOther own owns) (visible nearest isNearest)
      · cases isOther.symm.trans isAbove
        exact isNearest
      · exact absurd has (noneNearer steps less ancestor isAbove id)

/-- The method that runs for a receiver. The walk up from its class ends in every class table. The
method that is found belongs to the nearest class that has an instance method and does not hide it,
and none is found only if no class has one that it does not hide. So it is the method of the nearest
class with an instance method exactly if this class does not hide it. -/
theorem resolve_nearest_iff :
    (∀ more, program.climb (program.classes.length + 1 + more) [] className =
      program.ancestry className) ∧
    (∀ id, program.resolve className name arity = some id →
      ∃ steps ancestor, program.above? steps className = some ancestor ∧
        program.Implements ancestor name arity id ∧ ¬ program.Hides ancestor name arity ∧
        ∀ fewer < steps, ∀ other, program.above? fewer className = some other →
          ∀ id, program.Implements other name arity id → program.Hides other name arity) ∧
    (program.resolve className name arity = none ↔
      ∀ steps ancestor, program.above? steps className = some ancestor →
        ∀ id, program.Implements ancestor name arity id → program.Hides ancestor name arity) ∧
    (program.AnswersNearest className name arity (program.resolve className name arity) ↔
      ∀ ancestor, program.IsNearest className name arity ancestor →
        ¬ program.Hides ancestor name arity) := by
  refine ⟨climb_eq_ancestry, fun id => exists_of_resolve, resolve_eq_none_iff, ?_,
    answersNearest_resolve⟩
  intro answers ancestor isNearest hides
  cases found : program.resolve className name arity with
  | none =>
      rw [found] at answers
      obtain ⟨steps, isAbove, ⟨id, has⟩, -⟩ := isNearest
      exact answers steps ancestor isAbove id has
  | some id =>
      rw [found] at answers
      obtain ⟨nearest, isOther, owns⟩ := answers
      obtain ⟨steps, finder, -, has, visible, -⟩ := exists_of_resolve found
      -- The name of the method tells which class it was found in.
      cases isOther.unique isNearest
      cases MethodId.class_inj owns.1 has.1
      exact visible hides

/-- Two classes that extend each other. One of them has a method of its own, and the other one has
two methods of that name, of which the first may be static. -/
def overloadingProgram (isStatic : Bool) : Program where
  classes := [⟨"A", some "B", []⟩, ⟨"B", some "A", []⟩]
  methods :=
    let method (className : String) (isStatic : Bool) (type : Ty) : Method :=
      ⟨className, "m", isStatic, [type], .void, [], ⟨0⟩, [⟨⟨0⟩, [.ret none], []⟩], none⟩
    .ofList [
      (.plain "A" "m", method "A" false .bool),
      (.plain "B" "m", method "B" isStatic .int),
      (.overloaded "B" "m" 1, method "B" false .bool)]
  entry := .plain "A" "m"

theorem isNearest_overloadingProgram {isStatic : Bool} :
    (overloadingProgram isStatic).IsNearest "B" "m" 1 "B" := by
  refine ⟨0, rfl, ⟨.overloaded "B" "m" 1, ?_⟩, fun fewer less => absurd less (Nat.not_lt_zero _)⟩
  cases isStatic <;> decide

theorem resolve_nearest_iff_overloading :
    (overloadingProgram false).AnswersNearest "B" "m" 1
      ((overloadingProgram false).resolve "B" "m" 1) := by
  refine resolve_nearest_iff.2.2.2.2 fun ancestor isNearest hides => ?_
  cases isNearest.unique isNearest_overloadingProgram
  have shown : ¬ (overloadingProgram false).HasMethod (.plain "B" "m") 1 true := by decide
  exact shown hides.1

/-- A class whose instance method stands behind a static one of its name and arity is passed
over. -/
theorem not_answersNearest_overloading :
    ¬ (overloadingProgram true).AnswersNearest "B" "m" 1
      ((overloadingProgram true).resolve "B" "m" 1) := by
  have found : (overloadingProgram true).resolve "B" "m" 1 = some (.plain "A" "m") := by
    decide
  have other : ¬ (overloadingProgram true).Implements "B" "m" 1 (.plain "A" "m") := by
    decide
  rw [found]
  rintro ⟨ancestor, isNearest, has⟩
  cases isNearest.unique isNearest_overloadingProgram
  exact other has

end Program

end GotoFree
