import GotoFree.Proofs.ExprText
import Mathlib.Order.Filter.AtTopBot.Basic
import Mathlib.Order.Filter.Finite

/-!
# Reading expressions back

The text of an expression has no brackets but those that operands and the bases of selections need.
They are enough: here is a reader that takes an expression off the front of a text, and it gives
back every readable expression from the text of the expression, whatever follows.

An operand that does not stand alone is in brackets. So a text is a row of items, with operators
between them, and an item starts with a prefix, a bracket or a word; the selections from an item
follow it from the left to the right.
-/

namespace GotoFree.Target

open Filter

/-! ## Rows of operands -/

/-- An expression as it stands in a text: as it is or in brackets. -/
structure Item where
  value : Expr
  inBrackets : Bool

/-- The characters of an expression in its place. -/
def Item.chars (item : Item) : List Char := brackets item.inBrackets item.value.chars

/-- An expression in the place of an operand. -/
def Expr.item (expr : Expr) : Item := ⟨expr, !expr.standsAlone⟩

/-- The characters of an operator between its operands. -/
def BinOp.chars (op : BinOp) : List Char := ' ' :: (op.sign.toList ++ [' '])

/-- All operators on two operands. -/
def BinOp.all : List BinOp :=
  [.add, .sub, .mul, .div, .rem, .eq, .ne, .lt, .le, .gt, .ge, .and, .or]

/-- Items with operators between them. -/
structure Row where
  first : Item
  others : List (BinOp × Item)

namespace Row

/-- The characters of the items after the first one. -/
def tailChars (others : List (BinOp × Item)) : List Char :=
  others.flatMap fun (op, item) => op.chars ++ item.chars

/-- The characters of a row. -/
def chars (row : Row) : List Char := row.first.chars ++ tailChars row.others

/-- The items of a row. -/
def items (row : Row) : List Item := row.first :: row.others.map Prod.snd

/-- The expression that a row of one or two items is. -/
def expr? : Row → Option Expr
  | ⟨first, []⟩ => some first.value
  | ⟨first, [(op, second)]⟩ => some (.binary op first.value second.value)
  | _ => none

end Row

namespace Expr

/-- The row that an expression is written as. -/
def row : Expr → Row
  | binary op left right => ⟨left.item, [(op, right.item)]⟩
  | expr => ⟨⟨expr, false⟩, []⟩

theorem chars_row (expr : Expr) : expr.row.chars = expr.chars := by
  cases expr with
  | binary op left right =>
      rw [chars_binary]
      simp [row, Row.chars, Row.tailChars, Item.chars, item, BinOp.chars]
  | _ => simp [row, Row.chars, Row.tailChars, Item.chars, brackets]

/-- The row of an expression is that of this expression only. -/
theorem expr?_row (expr : Expr) : expr.row.expr? = some expr := by
  cases expr <;> rfl

end Expr

/-! ## Readers -/

/-- A reader takes a value off the front of a text. -/
abbrev Reader (α : Type) := List Char → Option (α × List Char)

namespace Reader

/-- Reads an operator between its operands. -/
def sign : Reader BinOp := fun text =>
  BinOp.all.findSome? fun op => (op.chars.isPrefixOf? text).map fun rest => (op, rest)

/-- Reads items with operators in front, as many as there are up to a number. -/
def tail (item : Reader Item) : Nat → Reader (List (BinOp × Item))
  | 0, text => some ([], text)
  | count + 1, text =>
      match sign text with
      | none => some ([], text)
      | some (op, text) => do
          let (first, text) ← item text
          let (others, text) ← tail item count text
          return ((op, first) :: others, text)

/-- Reads a row of up to four items. -/
def row (item : Reader Item) : Reader Row := fun text => do
  let (first, text) ← item text
  let (others, text) ← tail item 3 text
  return (⟨first, others⟩, text)

/-- Reads an expression. -/
def expr (item : Reader Item) : Reader Expr := fun text => do
  let (row, text) ← row item text
  let value ← row.expr?
  return (value, text)

/-- Reads values that are separated by commas, up to a closing bracket. -/
def listed {α : Type} (read : Reader α) : Nat → Reader (List α)
  | 0, _ => none
  | count + 1, text => do
      let (first, text) ← read text
      match text with
      | ')' :: text => return ([first], text)
      | ',' :: ' ' :: text => do
          let (others, text) ← listed read count text
          return (first :: others, text)
      | _ => none

/-- Reads what stands behind an opening bracket. -/
def bracketed {α : Type} (read : Reader α) (count : Nat) : Reader (List α)
  | ')' :: text => some ([], text)
  | text => listed read count text

/-- Reads a number. -/
def number : Reader Nat := fun text =>
  some (Nat.ofDigitChars 10 (text.takeWhile Char.isDigit) 0, text.dropWhile Char.isDigit)

/-- Reads selections from an expression, as many as there are. -/
def selections (read : Reader Expr) : Nat → Item → Reader Item
  | 0, _, _ => none
  | count + 1, base, '[' :: text => do
      let (position, text) ← read text
      match text with
      | ']' :: text => selections read count ⟨.index base.value position, false⟩ text
      | _ => none
  | count + 1, base, '.' :: text =>
      match "length".toList.isPrefixOf? text with
      | some text => selections read count ⟨.length base.value, false⟩ text
      | none => do
          let (component, text) ← number text
          selections read count ⟨.proj base.value component, false⟩ text
  | _ + 1, base, text => some (base, text)

/-- What some expressions in brackets are. -/
def ofParts : List Expr → Item
  | [] => ⟨.unit, false⟩
  | [expr] => ⟨expr, true⟩
  | exprs => ⟨.tuple exprs, false⟩

/-- What a word is if it is not the name of a function. -/
def ofWord (word : String) : Expr :=
  if word = "true" then .bool true
  else if word = "false" then .bool false
  else if word = "null" then .null
  else if word = "_" then .nondet
  else .var word

/-- Reads an item that starts with a word. -/
def worded (item : Reader Item) (count : Nat) (word text : List Char) :
    Option (Item × List Char) :=
  if word.head?.any Char.isDigit then
    selections (expr item) count ⟨.int (Nat.ofDigitChars 10 word 0), false⟩ text
  else if word = "mkref".toList then do
    let (content, text) ← item (text.drop 1)
    return (⟨.mkRef content.value, false⟩, text)
  else if word = "mkarray".toList then do
    let (size, text) ← item (text.drop 1)
    return (⟨.mkArray size.value, false⟩, text)
  else match text with
    | '(' :: text => do
        let (args, text) ← bracketed (expr item) count text
        selections (expr item) count ⟨.call (String.ofList word) args, false⟩ text
    | text => selections (expr item) count ⟨ofWord (String.ofList word), false⟩ text

/-- Reads an item; the depth to which items stand inside each other is limited. -/
def item : Nat → Reader Item
  | 0, _ => none
  | fuel + 1, text =>
      match text with
      | '*' :: text => do
          let (cell, text) ← item fuel text
          return (⟨.deref cell.value, false⟩, text)
      | '-' :: text => do
          let (operand, text) ← item fuel text
          return (⟨.unary .neg operand.value, false⟩, text)
      | '!' :: text => do
          let (operand, text) ← item fuel text
          return (⟨.unary .not operand.value, false⟩, text)
      | '(' :: text => do
          let (parts, text) ← bracketed (expr (item fuel)) fuel text
          selections (expr (item fuel)) fuel (ofParts parts) text
      | text =>
          worded (item fuel) fuel (text.takeWhile isWordChar) (text.dropWhile isWordChar)

/-! ## Reading back -/

/-- An item ends before the text. -/
def EndsItem (rest : List Char) : Prop :=
  ∀ c ∈ rest.head?, c ∈ [' ', '\n', ')', ']', ',', ';']

/-- A word ends before the text. -/
def EndsAny (rest : List Char) : Prop := ∀ c ∈ rest.head?, isWordChar c = false

/-- A word ends before the text, and no arguments follow. -/
def EndsWord (rest : List Char) : Prop :=
  ∀ c ∈ rest.head?, c ∈ [' ', '\n', ')', ']', ',', ';', '[', '.']

/-- A row ends before the text. -/
structure EndsRow (rest : List Char) : Prop where
  endsItem : EndsItem rest
  noSign : sign rest = none

/-- A reader that is allowed to go deep enough takes some characters for a value, whatever stands
behind them. -/
def Takes {α : Type} (reader : Nat → Reader α) (chars : List Char) (value : α)
    (ends : List Char → Prop) : Prop :=
  ∀ᶠ fuel in atTop, ∀ rest, ends rest → reader fuel (chars ++ rest) = some (value, rest)

/-- Some characters stand for an item from which there may be selections. -/
def Opens (chars : List Char) (base : Item) : Prop :=
  ∃ used, ∀ᶠ fuel in atTop, ∀ rest, EndsWord rest →
    item (fuel + 1) (chars ++ rest) = selections (expr (item fuel)) (fuel - used) base rest

/-- What ends an item ends a word. -/
theorem EndsItem.endsWord {rest : List Char} (ends : EndsItem rest) : EndsWord rest := by
  intro c member
  have known := ends c member
  simp only [List.mem_cons] at known ⊢
  tauto

theorem endsAny_cons {c : Char} {rest : List Char} (isMark : c ∈ marks) : EndsAny (c :: rest) := by
  rintro _ ⟨⟩
  exact isWordChar_of_mem_marks c isMark

/-- What ends a word ends anything. -/
theorem EndsWord.endsAny {rest : List Char} (ends : EndsWord rest) : EndsAny rest := by
  intro c member
  refine isWordChar_of_mem_marks c ?_
  have known := ends c member
  simp only [List.mem_cons, marks] at known ⊢
  tauto

theorem endsRow_cons {c : Char} {rest : List Char} (member : c ∈ ['\n', ')', ']', ',', ';']) :
    EndsRow (c :: rest) := by
  simp only [List.mem_cons, List.not_mem_nil, or_false] at member
  constructor
  · rintro _ ⟨⟩
    simp only [List.mem_cons]
    tauto
  · rcases member with rfl | rfl | rfl | rfl | rfl <;> rfl

theorem endsItem_space {rest : List Char} : EndsItem (' ' :: rest) := by
  rintro _ ⟨⟩
  exact List.mem_cons_self

/-- The sign of an operator is read as that operator. -/
theorem sign_chars {op : BinOp} {text : List Char} : sign (op.chars ++ text) = some (op, text) := by
  cases op <;> rfl

/-- What holds of a reader that is allowed one level more holds in the end. -/
theorem takes_of_succ {α : Type} {reader : Nat → Reader α} {chars : List Char} {value : α}
    {ends : List Char → Prop} (takes : ∀ᶠ fuel in atTop, ∀ rest, ends rest →
      reader (fuel + 1) (chars ++ rest) = some (value, rest)) : Takes reader chars value ends := by
  obtain ⟨bound, holds⟩ := eventually_atTop.1 takes
  refine eventually_atTop.2 ⟨bound + 1, fun fuel large => ?_⟩
  obtain ⟨less, rfl⟩ := Nat.exists_eq_add_of_le' (Nat.one_le_of_lt large)
  exact holds less (Nat.le_of_succ_le_succ large)

/-! ### Rows -/

/-- Operands of the same row end an item. -/
theorem endsItem_tailChars {others : List (BinOp × Item)} {rest : List Char}
    (ends : EndsItem rest) : EndsItem (Row.tailChars others ++ rest) := by
  cases others with
  | nil => exact ends
  | cons => exact endsItem_space

/-- The rest of a row is read back operand by operand. -/
theorem takes_tail {others : List (BinOp × Item)}
    (each : ∀ entry ∈ others, Takes item entry.2.chars entry.2 EndsItem) {count : Nat}
    (few : others.length ≤ count) :
    Takes (fun fuel => tail (item fuel) count) (Row.tailChars others) others EndsRow := by
  induction others generalizing count with
  | nil =>
      refine .of_forall fun fuel rest ends => ?_
      cases count with
      | zero => rfl
      | succ count =>
          simp [Row.tailChars, tail, ends.noSign]
  | cons entry others ih =>
      obtain ⟨count, rfl⟩ := Nat.exists_eq_add_of_le' (Nat.one_le_of_lt few)
      have one := each entry List.mem_cons_self
      have more := ih (fun other member => each other (List.mem_cons_of_mem _ member))
        (Nat.le_of_succ_le_succ few)
      filter_upwards [one, more] with fuel here later rest ends
      have split : Row.tailChars (entry :: others) ++ rest =
          entry.1.chars ++ (entry.2.chars ++ (Row.tailChars others ++ rest)) := by
        simp [Row.tailChars]
      rw [split, tail, sign_chars]
      dsimp only
      rw [here _ (endsItem_tailChars ends.endsItem)]
      simp [later rest ends]

/-- A row is read back, with its operators. -/
theorem takes_row {written : Row}
    (each : ∀ one ∈ written.items, Takes item one.chars one EndsItem)
    (few : written.others.length ≤ 3) :
    Takes (fun fuel => row (item fuel)) written.chars written EndsRow := by
  have behind : ∀ entry ∈ written.others, Takes item entry.2.chars entry.2 EndsItem :=
    fun entry member => each entry.2 (List.mem_cons_of_mem _ (List.mem_map_of_mem member))
  filter_upwards [each written.first List.mem_cons_self, takes_tail behind few]
    with fuel first others rest ends
  rw [row, Row.chars, List.append_assoc, first _ (endsItem_tailChars ends.endsItem)]
  simp [others rest ends]

/-! ### Words and numbers -/

/-- A word ends where the first other character stands. -/
theorem span_word {word rest : List Char} (isWord : word.all isWordChar = true)
    (ends : EndsAny rest) :
    (word ++ rest).takeWhile isWordChar = word ∧ (word ++ rest).dropWhile isWordChar = rest := by
  have all : ∀ c ∈ word, isWordChar c = true := List.all_eq_true.1 isWord
  rw [List.takeWhile_append_of_pos all, List.dropWhile_append_of_pos all]
  cases rest with
  | nil => simp
  | cons c rest => simp [ends c rfl]

/-- An item that starts with a word. -/
theorem item_word {word rest : List Char} {fuel : Nat} (inhabited : word ≠ [])
    (isWord : word.all isWordChar = true) (ends : EndsAny rest) :
    item (fuel + 1) (word ++ rest) = worded (item fuel) fuel word rest := by
  obtain ⟨taken, left⟩ := span_word isWord ends
  obtain ⟨c, others, rfl⟩ := List.exists_cons_of_ne_nil inhabited
  have first : isWordChar c = true := List.all_eq_true.1 isWord c List.mem_cons_self
  have other {mark : Char} (isMark : mark ∈ marks) : c ≠ mark := by
    rintro rfl
    cases first.symm.trans (isWordChar_of_mem_marks c isMark)
  rw [List.cons_append] at *
  rw [item, taken, left]
  all_goals
    intro _ same
    exact absurd (List.cons.inj same).1 (other (by decide))

/-! ### Lists -/

section Lists

variable {α : Type} {read : Reader α} {chars : α → List Char} {values : List α} {count : Nat}
  {rest : List Char}

/-- Texts between commas are read back one by one. -/
theorem listed_separated {value : α}
    (each : ∀ one ∈ value :: values, ∀ mark ∈ [')', ','], ∀ rest,
      read (chars one ++ mark :: rest) = some (one, mark :: rest))
    (few : values.length < count) :
    listed read count (separated ((value :: values).map chars) ++ ')' :: rest) =
      some (value :: values, rest) := by
  obtain ⟨count, rfl⟩ := Nat.exists_eq_add_of_le' (Nat.one_le_of_lt few)
  have here := each value List.mem_cons_self
  induction values generalizing value count with
  | nil =>
      rw [List.map_singleton, separated, List.intercalate_singleton, listed,
        here ')' List.mem_cons_self]
      rfl
  | cons other others ih =>
      obtain ⟨count, rfl⟩ :=
        Nat.exists_eq_add_of_le' (Nat.one_le_of_lt (Nat.lt_of_succ_lt_succ few))
      have later := ih (fun one member => each one (List.mem_cons_of_mem _ member)) count
        (Nat.lt_of_succ_lt_succ few) (each other (List.mem_cons_of_mem _ List.mem_cons_self))
      rw [List.map_cons, List.map_cons, separated_cons_cons, ← List.map_cons, List.append_assoc,
        List.cons_append, List.cons_append, listed, here ',' (by simp)]
      simp only [later, Option.bind_eq_bind, Option.bind_some, Option.pure_def]

/-- A list in brackets that does not close at once has elements. -/
theorem bracketed_of_head {text : List Char} (head : text.head? ≠ some ')') :
    bracketed read count text = listed read count text := by
  unfold bracketed
  split
  · exact absurd rfl head
  · rfl

/-- A separated list starts as its first text does. -/
theorem starts_separated {first : List Char} {others : List (List Char)} (starts : Starts first) :
    Starts (separated (first :: others)) := by
  cases others with
  | nil =>
      rw [separated, List.intercalate_singleton]
      exact starts
  | cons =>
      rw [separated_cons_cons]
      exact starts.append _

/-- A list in brackets is read back. -/
theorem bracketed_separated
    (each : ∀ one ∈ values, ∀ mark ∈ [')', ','], ∀ rest,
      read (chars one ++ mark :: rest) = some (one, mark :: rest))
    (starts : ∀ one ∈ values, Starts (chars one)) (few : values.length ≤ count) :
    bracketed read count (separated (values.map chars) ++ ')' :: rest) = some (values, rest) := by
  cases values with
  | nil => rfl
  | cons value others =>
      have front : Starts (separated ((value :: others).map chars)) :=
        starts_separated (starts value List.mem_cons_self)
      rw [bracketed_of_head ((front.append _).ne_mark (by decide) (by decide))]
      exact listed_separated each (Nat.lt_of_succ_le few)

end Lists

/-! ### Selections -/

/-- Selections end where no mark of one follows. -/
theorem selections_ends {read : Reader Expr} {count : Nat} {base : Item} {rest : List Char}
    (ends : EndsItem rest) : selections read (count + 1) base rest = some (base, rest) := by
  rw [selections]
  · rintro text rfl
    exact absurd (ends '[' rfl) (by decide)
  · rintro text rfl
    exact absurd (ends '.' rfl) (by decide)

/-- Digits are read back as their number. -/
theorem number_digits {value : Nat} {rest : List Char} (ends : EndsWord rest) :
    number (digits value ++ rest) = some (value, rest) := by
  have all : ∀ c ∈ digits value, c.isDigit = true := fun _ => isDigit_of_mem_digits
  have stops : rest.takeWhile Char.isDigit = [] ∧ rest.dropWhile Char.isDigit = rest := by
    cases rest with
    | nil => exact ⟨rfl, rfl⟩
    | cons c rest =>
        have other : c.isDigit = false := by
          by_contra isDigit
          cases (ends.endsAny c rfl).symm.trans
            (isWordChar_of_isDigit (Bool.not_eq_false _ ▸ isDigit))
        simp [other]
  rw [number, List.takeWhile_append_of_pos all, List.dropWhile_append_of_pos all, stops.1, stops.2,
    List.append_nil, digits, Nat.ofDigitChars_toDigits (by omega) (by omega)]

section Opens

variable {chars : List Char} {base : Item} {position : Expr}

/-- What stands for an item from which there may be selections is read as that item. -/
theorem Opens.takes (opens : Opens chars base) : Takes item chars base EndsItem := by
  obtain ⟨used, opens⟩ := opens
  refine takes_of_succ ?_
  filter_upwards [opens, eventually_gt_atTop used] with fuel opens large rest ends
  obtain ⟨left, isLeft⟩ := Nat.exists_eq_add_of_lt large
  rw [opens rest ends.endsWord, show fuel - used = left + 1 by omega, selections_ends ends]

/-- A text that opens an expression goes on with an index into it. -/
theorem Opens.index (opens : Opens chars base)
    (takes : Takes (fun fuel => expr (item fuel)) position.chars position EndsRow) :
    Opens (chars ++ '[' :: (position.chars ++ [']'])) ⟨.index base.value position, false⟩ := by
  obtain ⟨used, opens⟩ := opens
  refine ⟨used + 1, ?_⟩
  filter_upwards [opens, takes, eventually_gt_atTop used] with fuel opens takes large rest ends
  have bracket : EndsWord ('[' :: (position.chars ++ ']' :: rest)) := by
    rintro _ ⟨⟩
    decide
  rw [List.append_assoc, List.cons_append, List.append_assoc, List.singleton_append,
    opens _ bracket, show fuel - used = fuel - (used + 1) + 1 by omega, selections,
    takes _ (endsRow_cons (by decide))]
  rfl

/-- A text that opens an expression goes on with the length of it. -/
theorem Opens.length (opens : Opens chars base) :
    Opens (chars ++ '.' :: "length".toList) ⟨.length base.value, false⟩ := by
  obtain ⟨used, opens⟩ := opens
  refine ⟨used + 1, ?_⟩
  filter_upwards [opens, eventually_gt_atTop used] with fuel opens large rest ends
  have dot : EndsWord ('.' :: ("length".toList ++ rest)) := by
    rintro _ ⟨⟩
    decide
  rw [List.append_assoc, List.cons_append, opens _ dot,
    show fuel - used = fuel - (used + 1) + 1 by omega, selections]
  rfl

/-- A text that opens an expression goes on with a component of it. -/
theorem Opens.proj {component : Nat} (opens : Opens chars base) :
    Opens (chars ++ '.' :: digits component) ⟨.proj base.value component, false⟩ := by
  obtain ⟨used, opens⟩ := opens
  refine ⟨used + 1, ?_⟩
  filter_upwards [opens, eventually_gt_atTop used] with fuel opens large rest ends
  have dot : EndsWord ('.' :: (digits component ++ rest)) := by
    rintro _ ⟨⟩
    decide
  have noLength : "length".toList.isPrefixOf? (digits component ++ rest) = none := by
    refine Option.eq_none_iff_forall_ne_some.2 fun text isBehind => ?_
    have same := List.isPrefixOf?_eq_some_iff_append_eq.1 isBehind
    cases listed : digits component with
    | nil => exact absurd listed digits_ne_nil
    | cons c more =>
        have isDigit : c.isDigit = true := isDigit_of_mem_digits (listed ▸ List.mem_cons_self)
        rw [listed] at same
        obtain rfl : 'l' = c := (List.cons.inj same).1
        exact absurd isDigit (by decide)
  rw [List.append_assoc, List.cons_append, opens _ dot,
    show fuel - used = fuel - (used + 1) + 1 by omega, selections, noLength]
  simp only [number_digits ends]
  rfl

end Opens

/-! ### Words and brackets -/

/-- Digits open a number. -/
theorem opens_number {value : Nat} : Opens (digits value) ⟨.int value, false⟩ := by
  have isWord : (digits value).all isWordChar = true :=
    List.all_eq_true.2 fun c member => isWordChar_of_isDigit (isDigit_of_mem_digits member)
  have first : (digits value).head?.any Char.isDigit = true := by
    cases listed : digits value with
    | nil => exact absurd listed digits_ne_nil
    | cons c more => exact isDigit_of_mem_digits (listed ▸ List.mem_cons_self)
  have back : Nat.ofDigitChars 10 (digits value) 0 = value :=
    Nat.ofDigitChars_toDigits (by omega) (by omega)
  refine ⟨0, .of_forall fun fuel rest ends => ?_⟩
  rw [item_word digits_ne_nil isWord ends.endsAny, worded, if_pos first, back,
    Nat.sub_zero]
  rintro text rfl
  exact absurd (ends '(' rfl) (by decide)

/-- A word that is no keyword opens a variable. -/
theorem opens_word {word : List Char} (inhabited : word ≠ [])
    (isWord : word.all isWordChar = true) (first : word.head?.any Char.isDigit = false)
    (notRef : word ≠ "mkref".toList) (notArray : word ≠ "mkarray".toList) :
    Opens word ⟨ofWord (String.ofList word), false⟩ := by
  refine ⟨0, .of_forall fun fuel rest ends => ?_⟩
  rw [item_word inhabited isWord ends.endsAny, worded, if_neg (by simp [first]), if_neg notRef,
    if_neg notArray, Nat.sub_zero]
  rintro text rfl
  exact absurd (ends '(' rfl) (by decide)

/-- Expressions in brackets. -/
theorem opens_brackets {parts : List Expr}
    (takes : ∀ part ∈ parts, Takes (fun fuel => expr (item fuel)) part.chars part EndsRow)
    (starts : ∀ part ∈ parts, Starts part.chars) :
    Opens ('(' :: (separated (parts.map Expr.chars) ++ [')'])) (ofParts parts) := by
  have all := (eventually_all_finite parts.finite_toSet).2 takes
  refine ⟨0, ?_⟩
  filter_upwards [all, eventually_ge_atTop parts.length] with fuel takes large rest ends
  rw [List.cons_append, List.append_assoc, List.singleton_append, item,
    bracketed_separated (fun part member mark isMark rest => takes part member _ (endsRow_cons ?_))
      starts large]
  · rfl
  · simp only [List.mem_cons, List.not_mem_nil, or_false] at isMark ⊢
    tauto

/-- A name with a list in brackets opens a call. -/
theorem opens_call {function : String} {args : List Expr} (isName : IsName function)
    (takes : ∀ arg ∈ args, Takes (fun fuel => expr (item fuel)) arg.chars arg EndsRow)
    (starts : ∀ arg ∈ args, Starts arg.chars) :
    Opens (function.toList ++ '(' :: (separated (args.map Expr.chars) ++ [')']))
      ⟨.call function args, false⟩ := by
  have all := (eventually_all_finite args.finite_toSet).2 takes
  refine ⟨0, ?_⟩
  filter_upwards [all, eventually_ge_atTop args.length] with fuel takes large rest ends
  have bracket : EndsAny ('(' :: (separated (args.map Expr.chars) ++ ')' :: rest)) :=
    endsAny_cons (by decide)
  rw [List.append_assoc, List.cons_append, List.append_assoc, List.singleton_append,
    item_word isName.ne_nil isName.isWord bracket, worded, if_neg (by simp [isName.notDigit]),
    if_neg (isName.ne_keyword (by decide)), if_neg (isName.ne_keyword (by decide)),
    bracketed_separated (fun arg member mark isMark rest => takes arg member _ (endsRow_cons ?_))
      starts large, Nat.sub_zero, String.ofList_toList]
  · rfl
  · simp only [List.mem_cons, List.not_mem_nil, or_false] at isMark ⊢
    tauto

/-! ### Expressions -/

/-- The text of an expression is read as its items; and if it needs no brackets, there may be
selections from it. -/
structure Reads (written : Expr) : Prop where
  items : ∀ one ∈ written.row.items, Takes item one.chars one EndsItem
  opens : written.isClosed = false → Opens written.chars ⟨written, false⟩
  starts : Starts written.chars

namespace Reads

variable {written : Expr}

/-- An expression is read back from its text. -/
theorem takes (reads : Reads written) :
    Takes (fun fuel => expr (item fuel)) written.chars written EndsRow := by
  have few : written.row.others.length ≤ 3 := by
    cases written <;> simp [Expr.row]
  filter_upwards [takes_row reads.items few] with fuel takes rest ends
  rw [expr, ← written.chars_row, takes rest ends]
  simp [written.expr?_row]

/-- An expression in brackets opens an expression of its own. -/
theorem opens_brackets (reads : Reads written) :
    Opens (brackets true written.chars) ⟨written, true⟩ := by
  have opens := @Reader.opens_brackets [written] (by simpa using reads.takes)
    (by simpa using reads.starts)
  simpa [brackets, separated, ofParts] using opens

/-- An expression is read back from the place where selections follow. -/
theorem base (reads : Reads written) :
    Opens (brackets written.isClosed written.chars) ⟨written, written.isClosed⟩ := by
  cases closed : written.isClosed with
  | false => exact reads.opens closed
  | true => exact reads.opens_brackets

/-- An expression that stands in brackets unless it stands alone is read back. -/
theorem bracketed (reads : Reads written) {needed : Bool}
    (alone : needed = false → written.standsAlone = true) :
    Takes item (brackets needed written.chars) ⟨written, needed⟩ EndsItem := by
  cases needed with
  | true => exact reads.opens_brackets.takes
  | false =>
      refine reads.items ⟨written, false⟩ ?_
      cases written with
      | binary => cases alone rfl
      | _ => exact List.mem_singleton_self _

/-- An operand is read back, with the brackets that it needs. -/
theorem operand (reads : Reads written) :
    Takes item (brackets (!written.standsAlone) written.chars) written.item EndsItem :=
  reads.bracketed fun alone => by simpa using alone

/-- What there may be selections from is read back. -/
theorem of_opens (single : written.row = ⟨⟨written, false⟩, []⟩) (starts : Starts written.chars)
    (opens : Opens written.chars ⟨written, false⟩) : Reads written where
  items := by
    rw [single]
    exact List.forall_mem_singleton.2 opens.takes
  opens _ := opens
  starts := starts

/-- What there are no selections from without brackets is read back. -/
theorem of_takes (single : written.row = ⟨⟨written, false⟩, []⟩) (starts : Starts written.chars)
    (closed : written.isClosed = true)
    (takes : Takes item written.chars ⟨written, false⟩ EndsItem) : Reads written where
  items := by
    rw [single]
    exact List.forall_mem_singleton.2 takes
  opens opened := by cases closed.symm.trans opened
  starts := starts

/-- The content of a cell is read back. -/
theorem deref (reads : Reads written) (starts : Starts (Expr.deref written).chars) :
    Reads (.deref written) := by
  have alone : (written.isSelection || !written.standsAlone) = false →
      written.standsAlone = true := by
    intro none
    simpa using (Bool.or_eq_false_iff.1 none).2
  refine of_takes rfl starts rfl (takes_of_succ ?_)
  filter_upwards [reads.bracketed alone] with fuel takes rest ends
  rw [Expr.chars_deref, List.cons_append, item, takes rest ends]
  rfl

/-- A unary operation is read back. -/
theorem unary {op : UnOp} (reads : Reads written) (starts : Starts (Expr.unary op written).chars) :
    Reads (.unary op written) := by
  refine of_takes rfl starts rfl (takes_of_succ ?_)
  filter_upwards [reads.operand] with fuel takes rest ends
  rw [Expr.chars_unary]
  cases op with
  | neg =>
      change item (fuel + 1) ('-' :: (brackets (!written.standsAlone) written.chars ++ rest)) = _
      rw [item, takes rest ends]
      rfl
  | not =>
      change item (fuel + 1) ('!' :: (brackets (!written.standsAlone) written.chars ++ rest)) = _
      rw [item, takes rest ends]
      rfl

/-- A new cell is read back. -/
theorem mkRef (reads : Reads written) (starts : Starts (Expr.mkRef written).chars) :
    Reads (.mkRef written) := by
  refine of_takes rfl starts rfl (takes_of_succ ?_)
  filter_upwards [reads.operand] with fuel takes rest ends
  rw [Expr.chars_mkRef, List.append_assoc, List.cons_append,
    item_word (by decide) (by decide) endsItem_space.endsWord.endsAny, worded,
    if_neg (by decide), if_pos rfl, List.drop_one, List.tail_cons, takes rest ends]
  · rfl
  · exact nofun

/-- A new array is read back. -/
theorem mkArray (reads : Reads written) (starts : Starts (Expr.mkArray written).chars) :
    Reads (.mkArray written) := by
  refine of_takes rfl starts rfl (takes_of_succ ?_)
  filter_upwards [reads.operand] with fuel takes rest ends
  rw [Expr.chars_mkArray, List.append_assoc, List.cons_append,
    item_word (by decide) (by decide) endsItem_space.endsWord.endsAny, worded,
    if_neg (by decide), if_neg (by decide), if_pos rfl, List.drop_one, List.tail_cons,
    takes rest ends]
  · rfl
  · exact nofun

/-- A binary operation is read back, to its right operand. -/
theorem binary {op : BinOp} {left right : Expr} (ofLeft : Reads left) (ofRight : Reads right)
    (starts : Starts (Expr.binary op left right).chars) : Reads (.binary op left right) where
  items := by
    rintro one member
    rcases List.mem_cons.1 member with rfl | member
    · exact ofLeft.operand
    · obtain rfl := List.mem_singleton.1 member
      exact ofRight.operand
  opens := nofun
  starts := starts

/-- A name is read back as a variable. -/
theorem var {name : String} (isName : IsName name) : Reads (.var name) := by
  have opens := opens_word isName.ne_nil isName.isWord isName.notDigit
    (isName.ne_keyword (by decide)) (isName.ne_keyword (by decide))
  have plain : ofWord name = .var name := by
    have other {keyword : String} (isKeyword : keyword ∈ keywords) : name ≠ keyword :=
      fun same => isName.notKeyword (same ▸ isKeyword)
    rw [ofWord, if_neg (other (by decide)), if_neg (other (by decide)),
      if_neg (other (by decide)), if_neg (other (by decide))]
  rw [String.ofList_toList, plain] at opens
  refine of_opens rfl ?_ ?_
  · exact Expr.chars_var ▸ isName.starts
  · exact Expr.chars_var ▸ opens

end Reads

mutual

/-- A readable expression is read back from its text. -/
theorem reads : ∀ {written : Expr}, written.Readable → Reads written
  | .var _, readable => .var readable
  | .int value, readable => by
      refine .of_opens rfl (Expr.starts_chars readable) ?_
      obtain ⟨number, rfl⟩ := Int.eq_ofNat_of_zero_le readable
      rw [Expr.chars_int readable]
      exact opens_number
  | .bool true, readable => .of_opens rfl (Expr.starts_chars readable)
      (opens_word (by decide) (by decide) (by decide) (by decide) (by decide))
  | .bool false, readable => .of_opens rfl (Expr.starts_chars readable)
      (opens_word (by decide) (by decide) (by decide) (by decide) (by decide))
  | .null, readable => .of_opens rfl (Expr.starts_chars readable)
      (opens_word (by decide) (by decide) (by decide) (by decide) (by decide))
  | .nondet, readable => .of_opens rfl (Expr.starts_chars readable)
      (opens_word (by decide) (by decide) (by decide) (by decide) (by decide))
  | .unit, readable => .of_opens rfl (Expr.starts_chars readable)
      (@opens_brackets [] nofun nofun)
  | .deref cell, readable =>
      have inner : cell.Readable := readable
      (reads inner).deref (Expr.starts_chars readable)
  | .mkRef content, readable =>
      have inner : content.Readable := readable
      (reads inner).mkRef (Expr.starts_chars readable)
  | .mkArray size, readable =>
      have inner : size.Readable := readable
      (reads inner).mkArray (Expr.starts_chars readable)
  | .unary op operand, readable =>
      have inner : operand.Readable := readable
      (reads inner).unary (Expr.starts_chars readable)
  | .binary op left right, readable =>
      (reads readable.1).binary (reads readable.2) (Expr.starts_chars readable)
  | .index base position, readable => by
      refine .of_opens rfl (Expr.starts_chars readable) ?_
      rw [Expr.chars_index]
      exact (reads readable.1).base.index (reads readable.2).takes
  | .length base, readable => by
      have inner : base.Readable := readable
      refine .of_opens rfl (Expr.starts_chars readable) ?_
      rw [Expr.chars_length]
      exact (reads inner).base.length
  | .proj base component, readable => by
      have inner : base.Readable := readable
      refine .of_opens rfl (Expr.starts_chars readable) ?_
      rw [Expr.chars_proj]
      exact (reads inner).base.proj
  | .tuple components, readable => by
      have all := readsAll readable.2
      refine .of_opens rfl (Expr.starts_chars readable) ?_
      rw [Expr.chars_tuple]
      have opens := opens_brackets (fun part member => (all part member).takes)
        fun part member => (all part member).starts
      have several : ofParts components = ⟨.tuple components, false⟩ := by
        match components, readable.1 with
        | _ :: _ :: _, _ => rfl
      rwa [several] at opens
  | .call function args, readable => by
      have all := readsAll readable.2
      refine .of_opens rfl (Expr.starts_chars readable) ?_
      rw [Expr.chars_call]
      exact opens_call readable.1 (fun part member => (all part member).takes)
        fun part member => (all part member).starts

/-- Readable expressions are read back, each of them. -/
theorem readsAll : ∀ {written : List Expr}, Expr.AllReadable written →
    ∀ one ∈ written, Reads one
  | _ :: _, readable => List.forall_mem_cons.2 ⟨reads readable.1, readsAll readable.2⟩
  | [], _ => nofun

end

end Reader

/-- Readable expressions with one text are one expression. -/
theorem Expr.text_inj {one two : Expr} (readableOne : one.Readable) (readableTwo : two.Readable)
    (same : one.text = two.text) : one = two := by
  have ends : Reader.EndsRow [] := ⟨nofun, rfl⟩
  obtain ⟨fuel, first, second⟩ :=
    ((Reader.reads readableOne).takes.and (Reader.reads readableTwo).takes).exists
  have chars : one.chars = two.chars := congrArg String.toList same
  have both := (first [] ends).symm.trans (chars ▸ second [] ends)
  simpa using both

end GotoFree.Target
