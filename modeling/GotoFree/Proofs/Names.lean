import GotoFree.Lowering.Scope
import GotoFree.Lowering.Names
import GotoFree.Program.Block
import Mathlib.Data.List.Nodup

/-!
# Names

Lowering keeps the names with two underscores in front for itself. The decimal digits of a number
determine it, so names that differ in a number at their end differ.
-/

namespace GotoFree

/-- Names that lowering keeps for itself. -/
def IsReserved (name : String) : Prop := "__".toList <+: name.toList

instance (name : String) : Decidable (IsReserved name) := inferInstanceAs (Decidable (_ <+: _))

/-- The name of the control cell is reserved. -/
theorem isReserved_controlCell : IsReserved controlCell := by
  unfold IsReserved controlCell
  decide

/-- What begins like a reserved name is reserved. -/
theorem IsReserved.append {name : String} (reserved : IsReserved name) (ending : String) :
    IsReserved (name ++ ending) := by
  rw [IsReserved, String.toList_append]
  exact reserved.trans (List.prefix_append _ _)

/-- The digits of a number. -/
def digits (number : Nat) : List Char := Nat.toDigits 10 number

/-- A number is written in its digits. -/
theorem toList_toString {number : Nat} : (toString number).toList = digits number := by
  simp [digits, toString, Nat.repr]

/-- A number is told by its digits. -/
theorem digits_inj {one two : Nat} (same : digits one = digits two) : one = two := by
  have back (number : Nat) : Nat.ofDigitChars 10 (digits number) 0 = number :=
    Nat.ofDigitChars_toDigits (by omega) (by omega)
  rw [← back one, ← back two, same]

theorem toString_inj {one two : Nat} (same : toString one = toString two) : one = two :=
  digits_inj <| by rw [← toList_toString, ← toList_toString, same]

/-- A block is told by its text. -/
theorem BlockId.text_inj {one two : BlockId} (same : one.text = two.text) : one = two := by
  have numbers : one.number.toNat = two.number.toNat := toString_inj same
  cases one
  cases two
  simpa [UInt32.toNat_inj] using numbers

theorem isDigit_of_mem_digits {number : Nat} {c : Char} (member : c ∈ digits number) :
    c.isDigit = true :=
  Nat.isDigit_of_mem_toDigits (by omega) (by omega) member

/-- No underscore stands among digits. -/
theorem underscore_notMem_digits {number : Nat} : '_' ∉ digits number := fun member =>
  absurd (isDigit_of_mem_digits member) (by decide)

/-- The digits of a number end where no digit follows. -/
theorem takeWhile_digits {number : Nat} {rest : List Char}
    (ends : ∀ c ∈ rest.head?, c.isDigit = false) :
    (digits number ++ rest).takeWhile Char.isDigit = digits number ∧
      (digits number ++ rest).dropWhile Char.isDigit = rest := by
  have all : ∀ c ∈ digits number, c.isDigit = true := fun _ => isDigit_of_mem_digits
  rw [List.takeWhile_append_of_pos all, List.dropWhile_append_of_pos all]
  cases rest with
  | nil => simp
  | cons c rest =>
      have other := ends c rfl
      simp [other]

/-- A number is determined by a text that goes on with no digit. -/
theorem digits_append_inj {one two : Nat} {rest more : List Char}
    (same : digits one ++ rest = digits two ++ more)
    (ends : ∀ c ∈ rest.head?, c.isDigit = false) (others : ∀ c ∈ more.head?, c.isDigit = false) :
    one = two := by
  apply digits_inj
  rw [← (takeWhile_digits ends).1, same, (takeWhile_digits others).1]

/-- The last place of a mark splits a list. -/
theorem append_cons_inj_of_last {α : Type} {mark : α} {front back one two : List α}
    (same : front ++ mark :: one = back ++ mark :: two)
    (notOne : mark ∉ one) (notTwo : mark ∉ two) :
    front = back ∧ one = two := by
  rcases List.append_eq_append_iff.1 same with ⟨between, rfl, rest⟩ | ⟨between, rfl, rest⟩
  all_goals
    cases between with
    | nil => simp_all
    | cons first others =>
        obtain ⟨-, rfl⟩ := List.cons.inj rest
        simp at notOne notTwo

/-- What stands before the last underscore and the number behind it are determined by a name. -/
theorem append_toString_inj {front back : String} {one two : Nat}
    (same : front ++ "_" ++ toString one = back ++ "_" ++ toString two) :
    front = back ∧ one = two := by
  have lists := congrArg String.toList same
  simp only [String.toList_append, toList_toString, List.append_assoc] at lists
  obtain ⟨fronts, ends⟩ := append_cons_inj_of_last lists underscore_notMem_digits
    underscore_notMem_digits
  exact ⟨String.toList_inj.1 fronts, digits_inj ends⟩
/-- The functions of the loops of a method are told apart from each other and from its own. -/
theorem nodup_loopNames {function : String} {heads : List BlockId} (distinct : heads.Nodup) :
    (heads.map fun head => function ++ "__loop_" ++ head.text).Nodup ∧
      function ∉ heads.map fun head => function ++ "__loop_" ++ head.text := by
  constructor
  · refine distinct.map fun one two same => ?_
    simp only [String.append_assoc, String.append_right_inj] at same
    exact BlockId.text_inj same
  · intro member
    obtain ⟨head, -, same⟩ := List.mem_map.1 member
    have length := congrArg String.length same
    have seven : "__loop_".length = 7 := rfl
    simp only [String.length_append, seven] at length
    omega

end GotoFree
