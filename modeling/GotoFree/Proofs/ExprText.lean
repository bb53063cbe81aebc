import GotoFree.Proofs.Names
import GotoFree.Target.Expr
import GotoFree.Text.Alphanumeric

/-!
# The text of expressions

The characters of the text of an expression, form by form. An expression is readable if its
variables and functions are named by words and its numbers and tuples are as a text can show them;
the text of such an expression is one line and starts with a word, a prefix or an opening bracket.
-/

namespace GotoFree.Target

/-! ## Words -/

/-- The characters of words. -/
def isWordChar (c : Char) : Bool := c = '_' || isAlphanumeric c

/-- The words that stand for something else than a variable or a function. -/
def keywords : List String :=
  ["_", "null", "true", "false", "let", "in", "if", "then", "else", "return", "assert", "alias",
    "mkref", "mkarray"]

/-- A word that may name a variable or a function: it does not start with a digit and is no
keyword. -/
structure IsName (name : String) : Prop where
  isWord : name.toList.all isWordChar = true
  first : name.toList.head?.any (!·.isDigit) = true
  notKeyword : name ∉ keywords

instance (name : String) : Decidable (IsName name) :=
  decidable_of_iff (name.toList.all isWordChar = true ∧
      name.toList.head?.any (!·.isDigit) = true ∧ name ∉ keywords)
    ⟨fun ⟨isWord, first, notKeyword⟩ => ⟨isWord, first, notKeyword⟩,
      fun ⟨isWord, first, notKeyword⟩ => ⟨isWord, first, notKeyword⟩⟩

/-- The characters that stand between words. -/
def marks : List Char :=
  [' ', '\n', '(', ')', '[', ']', '.', ',', ';', ':', '=', '+', '-', '*', '/', '%', '!', '<', '>',
    '&', '|', '\x7b', '\x7d']

/-- No character below 128 is in the table of wide ones. -/
theorem isIn_wideAlphanumerics {c : Char} (ascii : c.toNat < 128) :
    isIn wideAlphanumerics c = false := by
  have wide : ∀ range ∈ wideAlphanumerics, 128 ≤ range.1 := by decide +kernel
  simp only [isIn, List.any_eq_false, Bool.and_eq_true, decide_eq_true_eq, not_and]
  intro range member
  have := wide range member
  omega

/-- A mark is no character of a word. -/
theorem isWordChar_of_mem_marks : ∀ c ∈ marks, isWordChar c = false := by
  intro c member
  have all : marks.all (fun c => c.toNat < 128 ∧ c ≠ '_' ∧ c.isAlphanum = false) = true := by decide
  obtain ⟨isAscii, other, noAlphanum⟩ := of_decide_eq_true (List.all_eq_true.1 all c member)
  simp [isWordChar, isAlphanumeric, other, noAlphanum, isIn_wideAlphanumerics isAscii]

mutual

/-- An expression that can be read back from its text: its variables and functions are named by
words, its numbers are not negative, and its tuples have several components. -/
def Expr.Readable : Expr → Prop
  | var name => IsName name
  | int value => 0 ≤ value
  | bool _ | null | unit | nondet => True
  | deref base | mkRef base | mkArray base | length base | proj base _ | unary _ base =>
      base.Readable
  | index base position => base.Readable ∧ position.Readable
  | tuple components => 2 ≤ components.length ∧ Expr.AllReadable components
  | binary _ left right => left.Readable ∧ right.Readable
  | call function args => IsName function ∧ Expr.AllReadable args

/-- Expressions that can be read back from their texts. -/
def Expr.AllReadable : List Expr → Prop
  | [] => True
  | expr :: rest => expr.Readable ∧ Expr.AllReadable rest

end

/-! ## Characters -/

/-- Some characters may stand at the front of an expression. -/
def Starts (chars : List Char) : Prop :=
  ∃ c rest, chars = c :: rest ∧ (isWordChar c = true ∨ c ∈ ['*', '-', '!', '('])

theorem Starts.append {chars : List Char} (starts : Starts chars) (rest : List Char) :
    Starts (chars ++ rest) := by
  obtain ⟨c, more, rfl, front⟩ := starts
  exact ⟨c, more ++ rest, rfl, front⟩

/-- An expression starts with a sign or a bracket, if with a mark at all. -/
theorem Starts.ne_mark {chars : List Char} (starts : Starts chars) {mark : Char}
    (isMark : mark ∈ marks) (other : mark ∉ ['*', '-', '!', '(']) : chars.head? ≠ some mark := by
  obtain ⟨c, more, rfl, front⟩ := starts
  rintro ⟨⟩
  rcases front with front | front
  · cases front.symm.trans (isWordChar_of_mem_marks _ isMark)
  · exact other front

/-- A name starts an expression. -/
theorem IsName.starts {name : String} (isName : IsName name) : Starts name.toList := by
  obtain ⟨isWord, first, -⟩ := isName
  cases listed : name.toList with
  | nil => simp [listed] at first
  | cons c rest =>
      refine ⟨c, rest, rfl, .inl ?_⟩
      exact List.all_eq_true.1 (listed ▸ isWord) c List.mem_cons_self

theorem IsName.ne_nil {name : String} (isName : IsName name) : name.toList ≠ [] := by
  obtain ⟨c, rest, same, -⟩ := isName.starts
  exact same ▸ List.cons_ne_nil c rest

theorem IsName.notDigit {name : String} (isName : IsName name) :
    name.toList.head?.any Char.isDigit = false := by
  have first := isName.first
  cases head : name.toList.head? with
  | none => rfl
  | some c => simpa [head] using first

/-- A name is no keyword. -/
theorem IsName.ne_keyword {name keyword : String} (isName : IsName name)
    (isKeyword : keyword ∈ keywords) : name.toList ≠ keyword.toList := by
  intro same
  rw [String.toList_inj] at same
  exact isName.notKeyword (same ▸ isKeyword)

theorem isWordChar_of_isDigit {c : Char} (isDigit : c.isDigit = true) : isWordChar c = true := by
  simp [isWordChar, isAlphanumeric, Char.isAlphanum, isDigit]

/-- A name holds no line break. -/
theorem IsName.newline_notMem {name : String} (isName : IsName name) : '\n' ∉ name.toList := by
  intro member
  cases (List.all_eq_true.1 isName.isWord _ member).symm.trans
    (isWordChar_of_mem_marks '\n' (by decide))

theorem newline_notMem_digits {number : Nat} : '\n' ∉ digits number := fun member =>
  absurd (isDigit_of_mem_digits member) (by decide)

theorem digits_ne_nil {number : Nat} : digits number ≠ [] := Nat.toDigits_ne_nil

theorem starts_digits {number : Nat} : Starts (digits number) := by
  cases listed : digits number with
  | nil => exact absurd listed digits_ne_nil
  | cons c rest =>
      refine ⟨c, rest, rfl, .inl (isWordChar_of_isDigit ?_)⟩
      exact isDigit_of_mem_digits (listed ▸ List.mem_cons_self)

/-- Characters in brackets, if they need them. -/
def brackets (needed : Bool) (chars : List Char) : List Char :=
  if needed then '(' :: (chars ++ [')']) else chars

/-- An expression in brackets starts as one. -/
theorem Starts.brackets {needed : Bool} {chars : List Char} (starts : Starts chars) :
    Starts (Target.brackets needed chars) := by
  cases needed with
  | false => exact starts
  | true => exact ⟨'(', _, rfl, .inr (by decide)⟩

/-- The characters of some texts, separated by commas. -/
def separated (texts : List (List Char)) : List Char := [',', ' '].intercalate texts

theorem separated_cons_cons {first second : List Char} {others : List (List Char)} :
    separated (first :: second :: others) =
      first ++ ',' :: ' ' :: separated (second :: others) := by
  simp [separated, List.intercalate_cons_cons]

/-- No line break stands between the texts of a list if none stands in them. -/
theorem newline_notMem_separated {texts : List (List Char)} (free : ∀ text ∈ texts, '\n' ∉ text) :
    '\n' ∉ separated texts := by
  induction texts with
  | nil => decide
  | cons first others ih =>
      rw [List.forall_mem_cons] at free
      cases others with
      | nil => simpa [separated] using free.1
      | cons => simp [separated_cons_cons, free.1, ih free.2]

/-- Brackets bring no line break. -/
theorem newline_notMem_brackets {needed : Bool} {chars : List Char} (free : '\n' ∉ chars) :
    '\n' ∉ brackets needed chars := by
  cases needed <;> simpa [brackets] using free

namespace Expr

/-- The characters of the text of an expression. -/
def chars (expr : Expr) : List Char := expr.text.toList

/-- Whether a selection from the expression needs brackets around it. -/
def isClosed (base : Expr) : Bool := base.isDeref || !base.standsAlone

theorem toList_bracketed {needed : Bool} {text : String} :
    (bracketed needed text).toList = brackets needed text.toList := by
  cases needed <;> simp [bracketed, brackets]

theorem toList_texts {exprs : List Expr} :
    (texts exprs).map String.toList = exprs.map chars := by
  induction exprs with
  | nil => rfl
  | cons expr rest ih => exact congrArg (expr.chars :: ·) ih

theorem chars_var {name : String} : (var name).chars = name.toList := rfl

theorem chars_int {value : Int} (positive : 0 ≤ value) :
    (int value).chars = digits value.toNat := by
  obtain ⟨number, rfl⟩ := Int.eq_ofNat_of_zero_le positive
  exact toList_toString

/-- A content is written behind a star, with brackets around what would go on. -/
theorem chars_deref {cell : Expr} :
    (deref cell).chars = '*' :: brackets (cell.isSelection || !cell.standsAlone) cell.chars := by
  change ("*" ++ bracketed _ cell.text).toList = _
  simp [chars, toList_bracketed]

/-- A new cell is written with its content behind it. -/
theorem chars_mkRef {content : Expr} :
    (mkRef content).chars =
      "mkref".toList ++ ' ' :: brackets (!content.standsAlone) content.chars := by
  change ("mkref " ++ bracketed _ content.text).toList = _
  simp [chars, toList_bracketed]

theorem chars_mkArray {size : Expr} :
    (mkArray size).chars = "mkarray".toList ++ ' ' :: brackets (!size.standsAlone) size.chars := by
  change ("mkarray " ++ bracketed _ size.text).toList = _
  simp [chars, toList_bracketed]

/-- An index is written behind its array. -/
theorem chars_index {base position : Expr} : (index base position).chars =
    brackets base.isClosed base.chars ++ '[' :: (position.chars ++ [']']) := by
  change (bracketed base.isClosed base.text ++ "[" ++ position.text ++ "]").toList = _
  simp [chars, toList_bracketed]

theorem chars_length {base : Expr} :
    (length base).chars = brackets base.isClosed base.chars ++ '.' :: "length".toList := by
  change (bracketed base.isClosed base.text ++ ".length").toList = _
  simp [chars, toList_bracketed]

/-- A tuple is written in brackets. -/
theorem chars_tuple {components : List Expr} :
    (tuple components).chars = '(' :: (separated (components.map chars) ++ [')']) := by
  change ("(" ++ ", ".intercalate (texts components) ++ ")").toList = _
  simp [toList_texts, separated]

theorem chars_proj {base : Expr} {component : Nat} :
    (proj base component).chars = brackets base.isClosed base.chars ++ '.' :: digits component := by
  change (bracketed base.isClosed base.text ++ "." ++ toString component).toList = _
  rw [← toList_toString]
  simp [chars, toList_bracketed]

/-- A binary operation is written between its operands. -/
theorem chars_binary {op : BinOp} {left right : Expr} : (binary op left right).chars =
    brackets (!left.standsAlone) left.chars ++
      ' ' :: (op.sign.toList ++ ' ' :: brackets (!right.standsAlone) right.chars) := by
  change (bracketed _ left.text ++ " " ++ op.sign ++ " " ++ bracketed _ right.text).toList = _
  simp [chars, toList_bracketed]

theorem chars_unary {op : UnOp} {operand : Expr} :
    (unary op operand).chars = op.sign.toList ++ brackets (!operand.standsAlone) operand.chars := by
  change (op.sign ++ bracketed _ operand.text).toList = _
  simp [chars, toList_bracketed]

/-- A call is written with its arguments in brackets. -/
theorem chars_call {function : String} {args : List Expr} :
    (call function args).chars =
      function.toList ++ '(' :: (separated (args.map chars) ++ [')']) := by
  change (function ++ "(" ++ ", ".intercalate (texts args) ++ ")").toList = _
  simp [toList_texts, separated]

/-- The text of an expression starts with a word, a prefix or an opening bracket. -/
theorem starts_chars : ∀ {expr : Expr}, expr.Readable → Starts expr.chars
  | var _, readable => chars_var ▸ readable.starts
  | int _, readable => chars_int readable ▸ starts_digits
  | bool true, _ | bool false, _ | null, _ | nondet, _ => ⟨_, _, rfl, .inl (by decide)⟩
  | unit, _ => ⟨_, _, rfl, .inr (by decide)⟩
  | deref _, _ => ⟨_, _, chars_deref, .inr (by decide)⟩
  | mkRef _, _ => ⟨_, _, chars_mkRef, .inl (by decide)⟩
  | mkArray _, _ => ⟨_, _, chars_mkArray, .inl (by decide)⟩
  | tuple _, _ => ⟨_, _, chars_tuple, .inr (by decide)⟩
  | index _ _, readable => chars_index ▸ (starts_chars readable.1).brackets.append _
  | length base, readable =>
      have inner : base.Readable := readable
      chars_length ▸ (starts_chars inner).brackets.append _
  | proj base _, readable =>
      have inner : base.Readable := readable
      chars_proj ▸ (starts_chars inner).brackets.append _
  | binary _ _ _, readable => chars_binary ▸ (starts_chars readable.1).brackets.append _
  | unary .neg _, _ | unary .not _, _ => ⟨_, _, chars_unary, .inr (by decide)⟩
  | call _ _, readable => chars_call ▸ readable.1.starts.append _

mutual

/-- The text of an expression is one line. -/
theorem newline_notMem_chars : ∀ {expr : Expr}, expr.Readable → '\n' ∉ expr.chars
  | var _, readable => chars_var ▸ readable.newline_notMem
  | int _, readable => chars_int readable ▸ newline_notMem_digits
  | bool true, _ | bool false, _ | null, _ | nondet, _ | unit, _ => by decide
  | deref cell, readable => by
      have inner : cell.Readable := readable
      simpa [chars_deref] using newline_notMem_brackets (newline_notMem_chars inner)
  | mkRef content, readable => by
      have inner : content.Readable := readable
      simpa [chars_mkRef] using newline_notMem_brackets (newline_notMem_chars inner)
  | mkArray size, readable => by
      have inner : size.Readable := readable
      simpa [chars_mkArray] using newline_notMem_brackets (newline_notMem_chars inner)
  | unary op operand, readable => by
      have inner : operand.Readable := readable
      cases op <;>
        simpa [chars_unary, UnOp.sign] using newline_notMem_brackets (newline_notMem_chars inner)
  | binary op left right, readable => by
      have ofLeft := @newline_notMem_brackets (!left.standsAlone) _
        (newline_notMem_chars readable.1)
      have ofRight := @newline_notMem_brackets (!right.standsAlone) _
        (newline_notMem_chars readable.2)
      cases op <;> simp [chars_binary, BinOp.sign, ofLeft, ofRight]
  | index base position, readable => by
      have ofBase := @newline_notMem_brackets base.isClosed _ (newline_notMem_chars readable.1)
      simp [chars_index, ofBase, newline_notMem_chars readable.2]
  | length base, readable => by
      have inner : base.Readable := readable
      simpa [chars_length] using newline_notMem_brackets (newline_notMem_chars inner)
  | proj base component, readable => by
      have inner : base.Readable := readable
      have ofBase := @newline_notMem_brackets base.isClosed _ (newline_notMem_chars inner)
      simp [chars_proj, ofBase, newline_notMem_digits]
  | tuple components, readable => by
      simp [chars_tuple, newline_notMem_separated (newline_notMem_of_all readable.2)]
  | call function args, readable => by
      simp [chars_call, readable.1.newline_notMem,
        newline_notMem_separated (newline_notMem_of_all readable.2)]

/-- Readable expressions are written without line breaks. -/
theorem newline_notMem_of_all : ∀ {exprs : List Expr}, AllReadable exprs →
    ∀ text ∈ exprs.map chars, '\n' ∉ text
  | [], _ => nofun
  | _ :: _, readable => List.forall_mem_cons.2
      ⟨newline_notMem_chars readable.1, newline_notMem_of_all readable.2⟩

end

end Expr

end GotoFree.Target
