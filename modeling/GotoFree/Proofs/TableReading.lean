import GotoFree.Proofs.FlagTable
import GotoFree.Proofs.FunctionNames

/-!
# Reading tables back

The text of the tables of flags and tags determines the tables, if no class name has a quote in it
(`Program.lower_tables_inj`): a name of a function ends at the first blank, since it is a word; a
number ends at the next blank; a coordinate or a class name ends at the closing quote; and after an
entry either another one begins or the list is closed. Functions without flags are not in the text.
-/

namespace GotoFree

/-! ## Texts that follow each other -/

/-- The first place of a mark splits a list. -/
theorem append_cons_inj_of_first {α : Type} {mark : α} {front back one two : List α}
    (same : front ++ mark :: one = back ++ mark :: two) (notFront : mark ∉ front)
    (notBack : mark ∉ back) : front = back ∧ one = two := by
  rcases List.append_eq_append_iff.1 same with ⟨between, rfl, rest⟩ | ⟨between, rfl, rest⟩
  all_goals
    cases between with
    | nil => simp_all
    | cons first others =>
        obtain ⟨rfl, -⟩ := List.cons.inj rest
        simp at notFront notBack

/-- Where items and what follows them can be told apart, and the end of a list from another item,
lists of items can be told apart. -/
theorem flatMap_append_inj {α : Type} {chars : α → List Char} {stop : Char} {items others : List α}
    {rest more : List Char}
    (same : items.flatMap chars ++ stop :: rest = others.flatMap chars ++ stop :: more)
    (each : ∀ one ∈ items, ∀ two ∈ others, ∀ after behind,
      chars one ++ after = chars two ++ behind → one = two ∧ after = behind)
    (starts : ∀ item after, (chars item ++ after).head? ≠ some stop) :
    items = others ∧ rest = more := by
  have continues {item : α} {after end_ : List Char} (ends : stop :: end_ = chars item ++ after) :
      False :=
    starts item after (by rw [← ends, List.head?_cons])
  induction items generalizing others with
  | nil =>
      cases others with
      | nil => exact ⟨rfl, (List.cons.inj same).2⟩
      | cons two others =>
          rw [List.flatMap_cons, List.append_assoc] at same
          exact (continues same).elim
  | cons one items ih =>
      cases others with
      | nil =>
          rw [List.flatMap_cons, List.append_assoc] at same
          exact (continues same.symm).elim
      | cons two others =>
          rw [List.flatMap_cons, List.flatMap_cons, List.append_assoc, List.append_assoc] at same
          obtain ⟨rfl, rests⟩ := each one List.mem_cons_self two List.mem_cons_self _ _ same
          obtain ⟨rfl, rfl⟩ := ih rests fun one first two second =>
            each one (List.mem_cons_of_mem _ first) two (List.mem_cons_of_mem _ second)
          exact ⟨rfl, rfl⟩

/-! ## Numbers and coordinates -/

theorem toList_intText {value : Int} :
    (Target.Expr.intText value).toList =
      if value < 0 then '-' :: digits value.natAbs else digits value.natAbs := by
  cases value with
  | ofNat number => exact (if_neg (Int.not_lt.2 (Int.natCast_nonneg number))).symm ▸ toList_toString
  | negSucc number =>
      rw [if_pos (Int.negSucc_lt_zero number)]
      change ("-" ++ toString (number + 1)).toList = _
      rw [String.toList_append, toList_toString]
      rfl

theorem blank_notMem_intText {value : Int} : ' ' ∉ (Target.Expr.intText value).toList := by
  have notDigits : ' ' ∉ digits value.natAbs := fun member =>
    absurd (isDigit_of_mem_digits member) (by decide)
  rw [toList_intText]
  split
  · simp [notDigits]
  · exact notDigits

theorem intText_inj {one two : Int}
    (same : (Target.Expr.intText one).toList = (Target.Expr.intText two).toList) : one = two := by
  have unsigned {number : Nat} {more : List Char} : digits number ≠ '-' :: more := fun same =>
    absurd (isDigit_of_mem_digits (same ▸ List.mem_cons_self)) (by decide)
  rw [toList_intText, toList_intText] at same
  split at same <;> split at same
  · have := digits_inj (List.cons.inj same).2
    omega
  · exact (unsigned same.symm).elim
  · exact (unsigned same).elim
  · have := digits_inj same
    omega

theorem Coord.toList_text {coord : Coord} :
    coord.text.toList = digits coord.block.number.toNat ++ coord.branch.mark.toList := by
  rw [Coord.text, String.toList_append]
  exact congrArg (· ++ _) toList_toString

theorem Branch.head?_mark (branch : Branch) :
    ∀ c ∈ branch.mark.toList.head?, c.isDigit = false := by
  cases branch <;> simp [Branch.mark]

theorem Branch.mark_inj : ∀ {one two : Branch}, one.mark.toList = two.mark.toList → one = two := by
  intro one two
  cases one <;> cases two <;> simp [Branch.mark]

theorem Coord.text_inj {one two : Coord} (same : one.text.toList = two.text.toList) :
    one = two := by
  rw [toList_text, toList_text] at same
  have numbers := digits_append_inj same (Branch.head?_mark _) (Branch.head?_mark _)
  rw [numbers, List.append_cancel_left_eq] at same
  obtain ⟨⟨number⟩, branch⟩ := one
  obtain ⟨⟨other⟩, way⟩ := two
  obtain rfl : number = other := UInt32.toNat_inj.1 numbers
  obtain rfl : branch = way := Branch.mark_inj same
  rfl

theorem Coord.quote_notMem_text {coord : Coord} : '"' ∉ coord.text.toList := by
  rw [toList_text, List.mem_append]
  rintro (member | member)
  · exact absurd (isDigit_of_mem_digits member) (by decide)
  · revert member
    cases coord.branch <;> simp [Branch.mark]

/-! ## Entries -/

namespace LoweredProgram

theorem toList_entryText {number : Int} {name : String} :
    (entryText number name).toList = '(' :: ((Target.Expr.intText number).toList ++
      ' ' :: '"' :: (name.toList ++ ['"', ')'])) := by
  simp [entryText]

/-- An entry of a table is determined by a text that begins with it. -/
theorem entryText_inj {one two : Int} {name other : String} {rest more : List Char}
    (same : (entryText one name).toList ++ rest = (entryText two other).toList ++ more)
    (unquoted : '"' ∉ name.toList) (unquotedOther : '"' ∉ other.toList) :
    one = two ∧ name = other ∧ rest = more := by
  simp only [toList_entryText, List.cons_append, List.append_assoc, List.cons.injEq, true_and,
    List.nil_append] at same
  obtain ⟨numbers, same⟩ :=
    append_cons_inj_of_first same blank_notMem_intText blank_notMem_intText
  obtain ⟨names, same⟩ := append_cons_inj_of_first (List.cons.inj same).2 unquoted unquotedOther
  exact ⟨intText_inj numbers, String.toList_inj.1 names, (List.cons.inj same).2⟩

/-- The characters of a flag with its coordinate. -/
def flagChars (flag : Int × Coord) : List Char := ' ' :: (entryText flag.1 flag.2.text).toList

theorem flagChars_inj {one two : Int × Coord} {rest more : List Char}
    (same : flagChars one ++ rest = flagChars two ++ more) : one = two ∧ rest = more := by
  obtain ⟨numbers, coords, rests⟩ := entryText_inj (List.cons.inj same).2
    Coord.quote_notMem_text Coord.quote_notMem_text
  exact ⟨Prod.ext numbers (Coord.text_inj (congrArg String.toList coords)), rests⟩

/-- The characters of the flags of a function. -/
def functionChars (entry : String × List (Int × Coord)) : List Char :=
  (flagsText entry.1 entry.2).toList

theorem functionChars_eq {name : String} {flags : List (Int × Coord)} :
    functionChars (name, flags) =
      '\n' :: ' ' :: ' ' :: '(' :: (name.toList ++ (flags.flatMap flagChars ++ [')'])) := by
  have each : flagChars = fun flag => ' ' :: (entryText flag.1 flag.2.text).toList := rfl
  simp [functionChars, flagsText, List.flatMap_map, each]

/-- The flags of a function are determined by a text that begins with them, if there are any. -/
theorem functionChars_inj {one two : String × List (Int × Coord)} {rest more : List Char}
    (same : functionChars one ++ rest = functionChars two ++ more)
    (isWord : IsWord one.1) (isWordOther : IsWord two.1)
    (used : one.2 ≠ []) (usedOther : two.2 ≠ []) : one = two ∧ rest = more := by
  have noBlank {name : String} (isWord : IsWord name) : ' ' ∉ name.toList := fun member =>
    absurd (isWord _ member) (by simp [Target.isWordChar_of_mem_marks ' ' (by decide)])
  obtain ⟨name, flags⟩ := one
  obtain ⟨other, others⟩ := two
  obtain ⟨first, flags, rfl⟩ := List.exists_cons_of_ne_nil used
  obtain ⟨second, others, rfl⟩ := List.exists_cons_of_ne_nil usedOther
  simp only [functionChars_eq, List.cons_append, List.append_assoc, List.cons.injEq, true_and,
    List.nil_append] at same
  -- The name ends at the blank before the first flag.
  obtain ⟨names, -⟩ := append_cons_inj_of_first
    (by simpa only [List.flatMap_cons, flagChars, List.cons_append] using same)
    (noBlank isWord) (noBlank isWordOther)
  rw [names, List.append_cancel_left_eq] at same
  obtain ⟨flags, rests⟩ := flatMap_append_inj same (fun _ _ _ _ _ _ => flagChars_inj)
    (by simp [flagChars])
  exact ⟨Prod.ext (String.toList_inj.1 names) flags, rests⟩

/-- The characters of a tag with its class. -/
def tagChars (tag : Int × String) : List Char :=
  '\n' :: ' ' :: ' ' :: (entryText tag.1 tag.2).toList

theorem tagChars_inj {one two : Int × String} {rest more : List Char}
    (same : tagChars one ++ rest = tagChars two ++ more) (unquoted : '"' ∉ one.2.toList)
    (unquotedOther : '"' ∉ two.2.toList) : one = two ∧ rest = more := by
  simp only [tagChars, List.cons_append, List.cons.injEq, true_and] at same
  obtain ⟨numbers, names, rests⟩ := entryText_inj same unquoted unquotedOther
  exact ⟨Prod.ext numbers names, rests⟩

/-! ## Tables -/

variable {flags others : List (String × List (Int × Coord))} {tags more : List (Int × String)}

theorem toList_tablesText : (tablesText flags tags).toList = "(flags".toList ++
    ((flags.filter fun entry => !entry.2.isEmpty).flatMap functionChars ++
      ')' :: ("\n(tags".toList ++ (tags.flatMap tagChars ++ ')' :: ['\n']))) := by
  have ofFunction : functionChars = fun entry => (flagsText entry.1 entry.2).toList := rfl
  have ofTag : tagChars = fun tag => '\n' :: ' ' :: ' ' :: (entryText tag.1 tag.2).toList := rfl
  simp [tablesText, List.flatMap_map, ofFunction, ofTag]

/-- The text of tables determines the tables, less the functions without flags. -/
theorem tablesText_inj (same : tablesText flags tags = tablesText others more)
    (words : ∀ entry ∈ flags, IsWord entry.1) (wordsOther : ∀ entry ∈ others, IsWord entry.1)
    (unquoted : ∀ tag ∈ tags, '"' ∉ tag.2.toList)
    (unquotedOther : ∀ tag ∈ more, '"' ∉ tag.2.toList) :
    (flags.filter fun entry => !entry.2.isEmpty) = (others.filter fun entry => !entry.2.isEmpty) ∧
      tags = more := by
  have used {entry : String × List (Int × Coord)} (kept : (!entry.2.isEmpty) = true) :
      entry.2 ≠ [] := by
    simpa using kept
  have chars := congrArg String.toList same
  rw [toList_tablesText, toList_tablesText, List.append_cancel_left_eq] at chars
  obtain ⟨functions, chars⟩ := flatMap_append_inj chars
    (fun one first two second _ _ same =>
      have ⟨among, kept⟩ := List.mem_filter.1 first
      have ⟨amongOthers, keptOther⟩ := List.mem_filter.1 second
      functionChars_inj same (words one among) (wordsOther two amongOthers) (used kept)
        (used keptOther))
    (by simp [functionChars_eq])
  rw [List.append_cancel_left_eq] at chars
  obtain ⟨tagged, -⟩ := flatMap_append_inj chars
    (fun one first two second _ _ same =>
      tagChars_inj same (unquoted one first) (unquotedOther two second))
    (by simp [tagChars])
  exact ⟨functions, tagged⟩

/-- A quote in the name of a class can look like the end of its entry. -/
example : tablesText [] [(1, "A\")\n  (2 \"B")] = tablesText [] [(1, "A"), (2, "B")] := by
  decide +kernel

end LoweredProgram

/-! ## Programs -/

/-- The functions in the flag table of a program have words as names. -/
theorem Program.isWord_of_lower {program : Program} {model : ObjectModel} {entry : Option MethodId}
    {lowered : LoweredProgram} (lowers : program.lower model entry = .ok lowered) :
    ∀ listed ∈ lowered.flags, IsWord listed.1 := by
  obtain ⟨prepared, layout, last, -, -, ran⟩ := lower_eq_ok_iff.1 lowers
  obtain ⟨ids, codes, sound, -, named, -, flags⟩ :=
    @Lower.forall₂_program _ (fun agenda id code => code.NamedIn agenda id)
      (fun _ _ _ _ keeps named => named.mono keeps)
      (fun _ _ _ _ _ isMethod made => Lower.namedIn_method isMethod made) _ _ ran
  intro listed member
  rw [flags] at member
  obtain ⟨code, isCode, rfl⟩ := List.mem_map.1 member
  obtain ⟨id, -, isNamed⟩ := exists_of_mem_right named isCode
  exact sound.worded id code.name isNamed.1

/-- Two lowered programs without quotes in the names of their classes have the same flags and tags
if the texts of their tables are the same; functions without flags do not count. -/
theorem Program.lower_tables_inj {one two : Program} {modelOne modelTwo : ObjectModel}
    {entryOne entryTwo : Option MethodId} {lowered other : LoweredProgram}
    (lowers : one.lower modelOne entryOne = .ok lowered)
    (lowersOther : two.lower modelTwo entryTwo = .ok other)
    (unquoted : ∀ tag ∈ lowered.tags, '"' ∉ tag.2.toList)
    (unquotedOther : ∀ tag ∈ other.tags, '"' ∉ tag.2.toList)
    (same : lowered.tables = other.tables) :
    (lowered.flags.filter fun entry => !entry.2.isEmpty) =
        (other.flags.filter fun entry => !entry.2.isEmpty) ∧
      lowered.tags = other.tags :=
  LoweredProgram.tablesText_inj same (isWord_of_lower lowers) (isWord_of_lower lowersOther)
    unquoted unquotedOther

/-- A program with a class and the method that leaves its loop in two ways, with a number that one
of them assigns. -/
def leavingProgram (number : Int64) : Program where
  classes := [⟨"A", none, []⟩]
  methods := .ofList [(.plain "A" "leave", { leavingMethod with
    blocks := leavingMethod.blocks.set 3
      ⟨⟨3⟩, [.assign (.var "x") (.use (.int number))], [⟨4⟩]⟩ })]
  entry := .plain "A" "leave"

/-- The text of the tables of a program and the tags in them, if the program is lowered. -/
def Program.tables? (program : Program) : Option (String × List (Int × String)) :=
  (program.lower .mutable none).toOption.map fun lowered => (lowered.tables, lowered.tags)

theorem Program.lower_tables_inj_leaving : ∃ lowered other,
    (leavingProgram 1).lower .mutable none = .ok lowered ∧
      (leavingProgram 2).lower .mutable none = .ok other ∧ lowered.tables = other.tables ∧
      (lowered.flags.filter fun entry => !entry.2.isEmpty) =
        (other.flags.filter fun entry => !entry.2.isEmpty) ∧
      lowered.tags = other.tags := by
  have tables : (leavingProgram 1).tables? = some
      ("(flags\n  (A_leave (1 \"2-\") (2 \"1-\")))\n(tags\n  (1 \"A\"))\n", [(1, "A")]) := by
    decide +kernel
  have alike : (leavingProgram 2).tables? = (leavingProgram 1).tables? := by
    decide +kernel
  obtain ⟨lowered, lowers, seen⟩ := exists_lowered tables
  obtain ⟨other, lowersOther, seenOther⟩ := exists_lowered (alike.trans tables)
  obtain ⟨text, tags⟩ := Prod.mk.inj seen
  obtain ⟨textOther, tagsOther⟩ := Prod.mk.inj seenOther
  have same : lowered.tables = other.tables := text.trans textOther.symm
  exact ⟨lowered, other, lowers, lowersOther, same,
    lower_tables_inj lowers lowersOther (by simp [tags]) (by simp [tagsOther]) same⟩

end GotoFree
