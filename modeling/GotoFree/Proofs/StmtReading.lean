import GotoFree.Proofs.ExprReading
import GotoFree.Proofs.StmtText

/-!
# Reading statements back

A reader that knows the level of a block takes the block off the front of a text. The first word of
a statement tells its kind; an expression at the start of a statement does not have such a first
word, and what follows it tells an assignment and a store from an expression alone.

One thing is not told. The sides of an alias statement have no brackets around them, so the text of
an equation on its left is that of an equation on its right. The reader gives every such equation
back on the right, and `Stmt.regrouped` moves it there.
-/

namespace GotoFree.Target

open Filter

/-! ## Regrouping -/

/-- An alias statement. An equation on its left is moved to its right, where the text does not tell
on which side it stands. -/
def Stmt.grouped (left right : Expr) : Stmt :=
  match left with
  | .binary .eq first second =>
      if first.standsAlone && right.standsAlone then .aliased first (.binary .eq second right)
      else .aliased left right
  | _ => .aliased left right

mutual

/-- A statement with the equations in its alias statements moved to the right. -/
def Stmt.regrouped : Stmt → Stmt
  | .bind pattern value body => .bind pattern value (Stmt.regroupedAll body)
  | .cond condition thenBranch elseBranch =>
      .cond condition (Stmt.regroupedAll thenBranch) (Stmt.regroupedAll elseBranch)
  | .aliased left right => Stmt.grouped left right
  | .assign target value => .assign target value
  | .arrayStore array position value => .arrayStore array position value
  | .ret value => .ret value
  | .assert condition => .assert condition
  | .expr value => .expr value

/-- Statements with the equations in their alias statements moved to the right. -/
def Stmt.regroupedAll : List Stmt → List Stmt
  | [] => []
  | stmt :: rest => stmt.regrouped :: Stmt.regroupedAll rest

end

theorem Stmt.writeTo_grouped {page : Page} {left right : Expr} :
    (Stmt.grouped left right).writeTo page = (Stmt.aliased left right).writeTo page := by
  unfold grouped
  split
  · split
    · next alone =>
      rw [Bool.and_eq_true] at alone
      simp only [writeTo, Expr.text, Expr.bracketed, alone, BinOp.sign, String.append_assoc]
      rfl
    · rfl
  · rfl

mutual

/-- A statement has the same text with equations moved to the right. -/
theorem Stmt.writeTo_regrouped : ∀ (stmt : Stmt) (page : Page),
    stmt.regrouped.writeTo page = stmt.writeTo page
  | .bind pattern value body, page => by
      rw [Stmt.regrouped, Stmt.writeTo, Stmt.writeTo, blockTo_regroupedAll body]
  | .cond condition thenBranch [], page => by
      rw [Stmt.regrouped, Stmt.regroupedAll, Stmt.writeTo, Stmt.writeTo,
        blockTo_regroupedAll thenBranch]
  | .cond condition thenBranch (stmt :: rest), page => by
      have branch := blockTo_regroupedAll (stmt :: rest)
      rw [Stmt.regroupedAll] at branch
      rw [Stmt.regrouped, Stmt.regroupedAll, Stmt.writeTo, Stmt.writeTo,
        blockTo_regroupedAll thenBranch]
      exact branch _
  | .aliased left right, page => by rw [Stmt.regrouped, Stmt.writeTo_grouped]
  | .assign .., _ | .arrayStore .., _ | .ret _, _ | .assert _, _ | .expr _, _ => rfl

theorem blockTo_regroupedAll : ∀ (stmts : List Stmt) (page : Page),
    blockTo page (Stmt.regroupedAll stmts) = blockTo page stmts
  | [], _ => rfl
  | stmt :: rest, page => by
      rw [Stmt.regroupedAll, blockTo, blockTo, Stmt.writeTo_regrouped stmt,
        linesTo_regroupedAll rest]

theorem linesTo_regroupedAll : ∀ (stmts : List Stmt) (page : Page),
    linesTo page (Stmt.regroupedAll stmts) = linesTo page stmts
  | [], _ => rfl
  | stmt :: rest, page => by
      rw [Stmt.regroupedAll, linesTo, linesTo, Stmt.writeTo_regrouped stmt,
        linesTo_regroupedAll rest]

end

/-! ## Alias statements -/

theorem Expr.binary_or_row (expr : Expr) :
    (∃ op left right, expr = .binary op left right) ∨
      expr.row = ⟨⟨expr, false⟩, []⟩ ∧ ∀ op left right, expr ≠ .binary op left right := by
  cases expr with
  | binary op left right => exact .inl ⟨op, left, right, rfl⟩
  | _ => exact .inr ⟨rfl, nofun⟩

theorem Expr.length_row (expr : Expr) : expr.row.others.length ≤ 1 := by
  cases expr <;> simp [row]

theorem Stmt.grouped_of_ne {left right : Expr} (other : ∀ op one two, left ≠ .binary op one two) :
    Stmt.grouped left right = .aliased left right := by
  unfold grouped
  split
  · exact absurd rfl (other _ _ _)
  · rfl

namespace Row

/-- The alias statement that a row of two to four items is. The text of an equation on the left is
also that of an equation on the right if no brackets tell them apart; it is read as the latter. -/
def aliased? : Row → Option Stmt
  | ⟨first, [(.eq, second)]⟩ => some (.aliased first.value second.value)
  | ⟨first, [(left, second), (right, third)]⟩ =>
      if left = .eq ∧ first.inBrackets = false ∧ third.inBrackets = !third.value.standsAlone then
        some (.aliased first.value (.binary right second.value third.value))
      else some (.aliased (.binary left first.value second.value) third.value)
  | ⟨first, [(left, second), (.eq, third), (right, fourth)]⟩ =>
      some (.aliased (.binary left first.value second.value)
        (.binary right third.value fourth.value))
  | _ => none

/-- Two rows with an equality sign between them. -/
def equated (left right : Row) : Row :=
  ⟨left.first, left.others ++ (.eq, right.first) :: right.others⟩

theorem chars_equated {left right : Row} :
    (equated left right).chars = left.chars ++ ' ' :: '=' :: ' ' :: right.chars := by
  simp [equated, chars, tailChars, BinOp.chars, BinOp.sign]

theorem items_equated {left right : Row} :
    (equated left right).items = left.items ++ right.items := by
  simp [equated, items]

theorem aliased?_equated (left right : Expr) :
    (equated left.row right.row).aliased? = some (Stmt.grouped left right) := by
  rcases left.binary_or_row with ⟨first, one, two, rfl⟩ | ⟨ofLeft, noLeft⟩ <;>
    rcases right.binary_or_row with ⟨second, three, four, rfl⟩ | ⟨ofRight, -⟩
  · cases first <;> simp [Expr.row, equated, aliased?, Expr.item, Stmt.grouped, Expr.standsAlone]
  · rw [ofRight]
    cases first with
    | eq =>
        simp [Expr.row, equated, aliased?, Expr.item, Stmt.grouped, apply_ite some]
    | _ => simp [Expr.row, equated, aliased?, Expr.item, Stmt.grouped]
  · rw [ofLeft, Stmt.grouped_of_ne noLeft]
    simp [Expr.row, equated, aliased?, Expr.item]
  · rw [ofLeft, ofRight, Stmt.grouped_of_ne noLeft]
    rfl

end Row

/-! ## Readers -/

namespace Reader

/-- Passes over some characters. -/
def past (chars : List Char) (text : List Char) : Option (List Char) := chars.isPrefixOf? text

/-- Reads a position of a tuple pattern. -/
def slot : Reader (Option String) := fun text =>
  let word := text.takeWhile isWordChar
  some (if word = ['_'] then none else some (String.ofList word), text.dropWhile isWordChar)

/-- Reads a pattern with up to a number of positions. -/
def pattern (count : Nat) : Reader Pattern
  | '(' :: text => do
      let (names, text) ← bracketed slot count text
      return (.tuple names, text)
  | text => some (.var (String.ofList (text.takeWhile isWordChar)), text.dropWhile isWordChar)

/-- Reads the statements after the first one of a block. -/
def lines (read : Reader Stmt) (level : Nat) : Nat → Reader (List Stmt)
  | 0, _ => none
  | count + 1, ';' :: '\n' :: text => do
      let text ← past (pad level) text
      let (first, text) ← read text
      let (others, text) ← lines read level count text
      return (first :: others, text)
  | _ + 1, text => some ([], text)

/-- Reads a block of up to a number of statements. -/
def block (read : Nat → Reader Stmt) (count level : Nat) : Reader (List Stmt)
  | '\x7b' :: ' ' :: '\x7d' :: text => some ([], text)
  | '\x7b' :: '\n' :: text => do
      let text ← past (pad (level + 1)) text
      let (first, text) ← read (level + 1) text
      let (others, text) ← lines (read (level + 1)) (level + 1) count text
      let text ← past ('\n' :: (pad level ++ ['\x7d'])) text
      return (first :: others, text)
  | _ => none

/-- Reads a binding behind its first word. -/
def binding (value : Reader Expr) (body : Reader (List Stmt)) (count : Nat) : Reader Stmt :=
  fun text => do
    let text ← past [' '] text
    let (pattern, text) ← pattern count text
    let text ← past [' ', '=', ' '] text
    let (value, text) ← value text
    let text ← past [' ', 'i', 'n', ' '] text
    let (body, text) ← body text
    return (.bind pattern value body, text)

/-- Reads a conditional behind its first word. -/
def conditional (value : Reader Expr) (body : Reader (List Stmt)) : Reader Stmt := fun text => do
  let text ← past [' '] text
  let (condition, text) ← value text
  let text ← past [' ', 't', 'h', 'e', 'n', ' '] text
  let (thenBranch, text) ← body text
  match past elseChars text with
  | none => return (.cond condition thenBranch [], text)
  | some text => do
      let (elseBranch, text) ← body text
      return (.cond condition thenBranch elseBranch, text)

/-- Reads an alias statement behind its first word. -/
def aliasing (item : Reader Item) : Reader Stmt := fun text => do
  let text ← past ['('] text
  let (row, text) ← row item text
  let stmt ← row.aliased?
  let text ← past [')'] text
  return (stmt, text)

/-- Reads what an expression that a statement starts with belongs to. -/
def stored (value : Reader Expr) : Expr → Reader Stmt
  | .var name, ' ' :: ':' :: '=' :: ' ' :: text => do
      let (value, text) ← value text
      return (.assign name value, text)
  | .index array position, ' ' :: '<' :: '-' :: ' ' :: text => do
      let (value, text) ← value text
      return (.arrayStore array position value, text)
  | shown, text => some (.expr shown, text)

/-- Reads a statement by its first word. -/
def led (item : Reader Item) (body : Reader (List Stmt)) (count : Nat)
    (word behind text : List Char) : Option (Stmt × List Char) :=
  if word = letWord then binding (expr item) body count behind
  else if word = ifWord then conditional (expr item) body behind
  else if word = returnWord then do
    let text ← past [' '] behind
    let (value, text) ← expr item text
    return (.ret value, text)
  else if word = assertWord then do
    let text ← past ['('] behind
    let (value, text) ← expr item text
    let text ← past [')'] text
    return (.assert value, text)
  else if word = aliasWord then aliasing item behind
  else do
    let (shown, text) ← expr item text
    stored (expr item) shown text

/-- Reads a statement on a level; the depth to which statements stand inside each other is
limited. -/
def stmt : Nat → Nat → Reader Stmt
  | 0, _, _ => none
  | fuel + 1, level, text =>
      led (item fuel) (block (stmt fuel) fuel level) fuel (text.takeWhile isWordChar)
        (text.dropWhile isWordChar) text

/-! ## Reading back -/

/-- A statement ends before the text. -/
def EndsStmt (rest : List Char) : Prop := ∀ c ∈ rest.head?, c ∈ ['\n', ';']

theorem EndsStmt.endsRow {rest : List Char} (ends : EndsStmt rest) : EndsRow rest := by
  cases rest with
  | nil => exact ⟨nofun, rfl⟩
  | cons c rest =>
      refine endsRow_cons ?_
      have known := ends c rfl
      simp only [List.mem_cons, List.not_mem_nil, or_false] at known ⊢
      tauto

/-! ### Passing over characters -/

section Past

variable {c : Char} {chars text rest : List Char}

@[simp] theorem past_append : past chars (chars ++ rest) = some rest :=
  List.isPrefixOf?_eq_some_iff_append_eq.2 rfl

@[simp] theorem past_nil : past [] text = some text := rfl

@[simp] theorem past_cons : past (c :: chars) (c :: text) = past chars text := by
  simp [past, List.isPrefixOf?]

theorem past_pad_brace {level : Nat} :
    past (pad level ++ ['\x7d']) (pad level ++ '\x7d' :: rest) = some rest := by
  have split : pad level ++ '\x7d' :: rest = (pad level ++ ['\x7d']) ++ rest := by simp
  rw [split, past_append]

end Past

/-! ### Patterns -/

theorem slot_chars {name : Option String} (readable : ∀ word, name = some word → IsName word)
    {rest : List Char} (ends : EndsAny rest) :
    slot (slotChars name ++ rest) = some (name, rest) := by
  cases name with
  | none =>
      obtain ⟨taken, left⟩ := @span_word (slotChars none) rest (by decide) ends
      rw [slot, taken, left]
      rfl
  | some word =>
      have isName := readable word rfl
      obtain ⟨taken, left⟩ := span_word isName.isWord ends
      have other : word.toList ≠ ['_'] := @IsName.ne_keyword _ "_" isName (by decide)
      simp [slot, slotChars, taken, left, other]

theorem starts_slotChars {name : Option String}
    (readable : ∀ word, name = some word → IsName word) : Starts (slotChars name) := by
  cases name with
  | none => exact ⟨'_', [], rfl, .inl (by decide)⟩
  | some word => exact (readable word rfl).starts

/-- A pattern is read back from its text. -/
theorem takes_pattern {written : Pattern} (readable : written.Readable) :
    Takes pattern written.chars written EndsItem := by
  cases written with
  | var name =>
      have isName : IsName name := readable
      refine .of_forall fun count rest ends => ?_
      obtain ⟨taken, left⟩ := span_word isName.isWord ends.endsWord.endsAny
      rw [Pattern.chars_var, pattern, taken, left, String.ofList_toList]
      intro text same
      have noWord := isWordChar_of_mem_marks '(' (by decide)
      rw [same, List.takeWhile_cons_of_neg (by simp [noWord])] at taken
      exact isName.ne_nil taken.symm
  | tuple names =>
      have each : ∀ name ∈ names, ∀ word, name = some word → IsName word := by
        rintro _ member word rfl
        exact readable word member
      filter_upwards [eventually_ge_atTop names.length] with count large rest ends
      rw [Pattern.chars_tuple, List.cons_append, List.append_assoc, List.singleton_append, pattern,
        bracketed_separated (fun name member mark isMark rest => slot_chars (each name member) ?_)
          (fun name member => starts_slotChars (each name member)) large]
      · rfl
      · rintro _ ⟨⟩
        refine isWordChar_of_mem_marks mark ?_
        simp only [List.mem_cons, List.not_mem_nil, or_false] at isMark
        rcases isMark with rfl | rfl <;> decide

/-! ### First words -/

/-- The words that statements start with. -/
def stmtWords : List (List Char) := [letWord, ifWord, returnWord, assertWord, aliasWord]

/-- A text does not start with the first word of a statement. -/
def StartsOther (text : List Char) : Prop := text.takeWhile isWordChar ∉ stmtWords

theorem EndsStmt.endsAny {rest : List Char} (ends : EndsStmt rest) : EndsAny rest :=
  ends.endsRow.endsItem.endsWord.endsAny

section StartsOther

variable {c : Char} {chars word text rest : List Char}

theorem startsOther_mark (isMark : c ∈ marks) : StartsOther (c :: text) := by
  have none := isWordChar_of_mem_marks c isMark
  rw [StartsOther, List.takeWhile_cons_of_neg (by simp [none])]
  decide

theorem startsOther_word (isWord : word.all isWordChar = true) (other : word ∉ stmtWords)
    (ends : EndsAny rest) : StartsOther (word ++ rest) := by
  rwa [StartsOther, (span_word isWord ends).1]

theorem startsOther_name {name : String} (isName : IsName name) (ends : EndsAny rest) :
    StartsOther (name.toList ++ rest) := by
  refine startsOther_word isName.isWord ?_ ends
  have other (keyword : String) := @IsName.ne_keyword name keyword isName
  simp only [stmtWords, List.mem_cons, List.not_mem_nil, or_false, not_or]
  exact ⟨other "let" (by decide), other "if" (by decide), other "return" (by decide),
    other "assert" (by decide), other "alias" (by decide)⟩

theorem startsOther_digits {number : Nat} (ends : EndsAny rest) :
    StartsOther (digits number ++ rest) := by
  refine startsOther_word (List.all_eq_true.2 fun c member => ?_) (fun member => ?_) ends
  · exact isWordChar_of_isDigit (isDigit_of_mem_digits member)
  · have letters : ∀ word ∈ stmtWords, word.any (!·.isDigit) = true := by decide
    obtain ⟨c, among, letter⟩ := List.any_eq_true.1 (letters _ member)
    simp [isDigit_of_mem_digits among] at letter

theorem startsOther_brackets {needed : Bool}
    (inner : ∀ rest, EndsAny rest → StartsOther (chars ++ rest)) (ends : EndsAny rest) :
    StartsOther (brackets needed chars ++ rest) := by
  cases needed with
  | true => exact startsOther_mark (by decide)
  | false => exact inner rest ends

end StartsOther

/-- The text of an expression does not start with the first word of a statement. -/
theorem startsOther : ∀ {shown : Expr}, shown.Readable → ∀ rest, EndsAny rest →
    StartsOther (shown.chars ++ rest)
  | .var _, readable, _, ends => by
      rw [Expr.chars_var]
      exact startsOther_name readable ends
  | .int _, readable, _, ends => by
      rw [Expr.chars_int readable]
      exact startsOther_digits ends
  | .bool true, _, _, ends | .bool false, _, _, ends | .null, _, _, ends | .nondet, _, _, ends =>
      startsOther_word (by decide) (by decide) ends
  | .unit, _, _, _ => startsOther_mark (by decide)
  | .deref _, _, _, _ => by
      rw [Expr.chars_deref]
      exact startsOther_mark (by decide)
  | .mkRef _, _, _, _ => by
      rw [Expr.chars_mkRef, List.append_assoc]
      exact startsOther_word (by decide) (by decide) (endsAny_cons (by decide))
  | .mkArray _, _, _, _ => by
      rw [Expr.chars_mkArray, List.append_assoc]
      exact startsOther_word (by decide) (by decide) (endsAny_cons (by decide))
  | .tuple _, _, _, _ => by
      rw [Expr.chars_tuple]
      exact startsOther_mark (by decide)
  | .unary op _, _, _, _ => by
      rw [Expr.chars_unary, List.append_assoc]
      cases op <;> exact startsOther_mark (by decide)
  | .index _ _, readable, _, _ => by
      rw [Expr.chars_index, List.append_assoc]
      exact startsOther_brackets (startsOther readable.1) (endsAny_cons (by decide))
  | .length base, readable, _, _ => by
      have inner : base.Readable := readable
      rw [Expr.chars_length, List.append_assoc]
      exact startsOther_brackets (startsOther inner) (endsAny_cons (by decide))
  | .proj base _, readable, _, _ => by
      have inner : base.Readable := readable
      rw [Expr.chars_proj, List.append_assoc]
      exact startsOther_brackets (startsOther inner) (endsAny_cons (by decide))
  | .binary _ _ _, readable, _, _ => by
      rw [Expr.chars_binary, List.append_assoc]
      exact startsOther_brackets (startsOther readable.1) (endsAny_cons (by decide))
  | .call _ _, readable, _, _ => by
      rw [Expr.chars_call, List.append_assoc]
      exact startsOther_name readable.1 (endsAny_cons (by decide))

/-! ### Statements -/

/-- A statement on a level is read back from its text, its equations moved to the right. -/
def TakesStmt (written : Stmt) : Prop := ∀ level,
  Takes (fun fuel => stmt fuel level) (written.chars level) written.regrouped EndsStmt

/-- A block on a level is read back from its text, its equations moved to the right. -/
def TakesBlock (written : List Stmt) : Prop := ∀ level,
  Takes (fun fuel => block (stmt fuel) fuel level) (blockChars level written)
    (Stmt.regroupedAll written) fun _ => True

section Statements

variable {fuel level : Nat} {pattern : Pattern} {value condition left right : Expr}
  {body thenBranch elseBranch : List Stmt} {rest : List Char}

theorem stmt_word {word : List Char} (isFirst : word ∈ stmtWords) (ends : EndsAny rest) :
    stmt (fuel + 1) level (word ++ rest) =
      led (item fuel) (block (stmt fuel) fuel level) fuel word rest (word ++ rest) := by
  have words : ∀ word ∈ stmtWords, word.all isWordChar = true := by decide
  obtain ⟨taken, left⟩ := span_word (words word isFirst) ends
  rw [stmt, taken, left]

theorem stmt_other {text : List Char} (other : StartsOther text) :
    stmt (fuel + 1) level text =
      (expr (item fuel) text).bind fun (shown, text) => stored (expr (item fuel)) shown text := by
  simp only [StartsOther, stmtWords, List.mem_cons, List.not_mem_nil, or_false, not_or] at other
  rw [stmt, led, if_neg other.1, if_neg other.2.1, if_neg other.2.2.1, if_neg other.2.2.2.1,
    if_neg other.2.2.2.2]
  rfl

theorem takes_bind (ofPattern : pattern.Readable) (ofValue : value.Readable)
    (ofBody : TakesBlock body) : TakesStmt (.bind pattern value body) := by
  intro level
  refine takes_of_succ ?_
  filter_upwards [takes_pattern ofPattern, (reads ofValue).takes, ofBody level]
    with fuel takesPattern takesValue takesBody rest ends
  have split : (Stmt.bind pattern value body).chars level ++ rest =
      letWord ++ ' ' :: (pattern.chars ++ ' ' :: '=' :: ' ' ::
        (value.chars ++ ' ' :: 'i' :: 'n' :: ' ' :: (blockChars level body ++ rest))) := by
    simp [Stmt.chars]
  have endsValue : EndsRow (' ' :: 'i' :: 'n' :: ' ' :: (blockChars level body ++ rest)) :=
    ⟨endsItem_space, rfl⟩
  rw [split, stmt_word (by decide) (endsAny_cons (by decide)), led, if_pos rfl]
  simp [binding, takesPattern _ endsItem_space, takesValue _ endsValue, takesBody rest trivial,
    Stmt.regrouped]

theorem past_else (ends : EndsStmt rest) : past elseChars rest = none := by
  cases rest with
  | nil => rfl
  | cons c rest =>
      have other : ' ' ≠ c := by
        rintro rfl
        exact absurd (ends ' ' rfl) (by decide)
      simp [past, elseChars, List.isPrefixOf?, other]

theorem takes_cond (ofCondition : condition.Readable) (ofThen : TakesBlock thenBranch)
    (ofElse : TakesBlock elseBranch) : TakesStmt (.cond condition thenBranch elseBranch) := by
  intro level
  refine takes_of_succ ?_
  filter_upwards [(reads ofCondition).takes, ofThen level, ofElse level]
    with fuel takesCondition takesThen takesElse rest ends
  have endsCondition (more : List Char) :
      EndsRow (' ' :: 't' :: 'h' :: 'e' :: 'n' :: ' ' :: more) := ⟨endsItem_space, rfl⟩
  cases elseBranch with
  | nil =>
      rw [Stmt.chars, List.append_assoc, List.cons_append,
        stmt_word (by decide) (endsAny_cons (by decide)), led, if_neg (by decide), if_pos rfl]
      simp [conditional, takesCondition _ (endsCondition _), takesThen _ trivial, past_else ends,
        Stmt.regrouped, Stmt.regroupedAll]
  | cons =>
      rw [Stmt.chars, List.append_assoc, List.cons_append,
        stmt_word (by decide) (endsAny_cons (by decide)), led, if_neg (by decide), if_pos rfl]
      simp [conditional, takesCondition _ (endsCondition _), takesThen _ trivial,
        takesElse _ trivial, Stmt.regrouped]

theorem takes_ret (ofValue : value.Readable) : TakesStmt (.ret value) := by
  intro level
  refine takes_of_succ ?_
  filter_upwards [(reads ofValue).takes] with fuel takesValue rest ends
  rw [Stmt.chars, List.append_assoc, List.cons_append,
    stmt_word (by decide) (endsAny_cons (by decide)), led, if_neg (by decide), if_neg (by decide),
    if_pos rfl]
  simp [takesValue rest ends.endsRow, Stmt.regrouped]

theorem takes_assert (ofCondition : condition.Readable) : TakesStmt (.assert condition) := by
  intro level
  refine takes_of_succ ?_
  filter_upwards [(reads ofCondition).takes] with fuel takesCondition rest ends
  rw [Stmt.chars, List.append_assoc, List.cons_append, List.append_assoc, List.singleton_append,
    stmt_word (by decide) (endsAny_cons (by decide)), led, if_neg (by decide), if_neg (by decide),
    if_neg (by decide), if_pos rfl]
  have endsCondition : EndsRow (')' :: rest) := endsRow_cons (by decide)
  simp [takesCondition _ endsCondition, Stmt.regrouped]

theorem takes_aliased (ofLeft : left.Readable) (ofRight : right.Readable) :
    TakesStmt (.aliased left right) := by
  intro level
  refine takes_of_succ ?_
  have each : ∀ one ∈ (Row.equated left.row right.row).items,
      Takes item one.chars one EndsItem := by
    intro one member
    rw [Row.items_equated, List.mem_append] at member
    exact member.elim ((reads ofLeft).items one) ((reads ofRight).items one)
  have few : (Row.equated left.row right.row).others.length ≤ 3 := by
    have ofLeft := left.length_row
    have ofRight := right.length_row
    simp only [Row.equated, List.length_append, List.length_cons]
    omega
  filter_upwards [takes_row each few] with fuel takesRow rest ends
  have endsRow : EndsRow (')' :: rest) := endsRow_cons (by decide)
  have split : (Stmt.aliased left right).chars level ++ rest =
      aliasWord ++ '(' :: ((Row.equated left.row right.row).chars ++ ')' :: rest) := by
    simp [Stmt.chars, Row.chars_equated, Expr.chars_row]
  rw [split, stmt_word (by decide) (endsAny_cons (by decide)), led, if_neg (by decide),
    if_neg (by decide), if_neg (by decide), if_neg (by decide), if_pos rfl]
  simp [aliasing, takesRow _ endsRow, Row.aliased?_equated, Stmt.regrouped]

theorem stored_ends {read : Reader Expr} (ends : EndsStmt rest) :
    stored read value rest = some (.expr value, rest) := by
  unfold stored
  split
  · exact absurd (ends ' ' rfl) (by decide)
  · exact absurd (ends ' ' rfl) (by decide)
  · rfl

theorem takes_expr (ofValue : value.Readable) : TakesStmt (.expr value) := by
  intro level
  refine takes_of_succ ?_
  filter_upwards [(reads ofValue).takes] with fuel takesValue rest ends
  rw [Stmt.chars, stmt_other (startsOther ofValue _ ends.endsAny), takesValue rest ends.endsRow]
  exact stored_ends ends

theorem takes_assign {target : String} (ofTarget : IsName target) (ofValue : value.Readable) :
    TakesStmt (.assign target value) := by
  intro level
  refine takes_of_succ ?_
  filter_upwards [(@reads (.var target) ofTarget).takes, (reads ofValue).takes]
    with fuel takesTarget takesValue rest ends
  have endsTarget : EndsRow (' ' :: ':' :: '=' :: ' ' :: (value.chars ++ rest)) :=
    ⟨endsItem_space, rfl⟩
  rw [Expr.chars_var] at takesTarget
  simp only [Stmt.chars, List.append_assoc, List.cons_append]
  rw [stmt_other (startsOther_name ofTarget (endsAny_cons (by decide))), takesTarget _ endsTarget]
  simp [stored, takesValue rest ends.endsRow, Stmt.regrouped]

theorem takes_arrayStore {array position : Expr} (ofSlot : (Expr.index array position).Readable)
    (ofValue : value.Readable) : TakesStmt (.arrayStore array position value) := by
  intro level
  refine takes_of_succ ?_
  filter_upwards [(reads ofSlot).takes, (reads ofValue).takes]
    with fuel takesSlot takesValue rest ends
  have endsSlot : EndsRow (' ' :: '<' :: '-' :: ' ' :: (value.chars ++ rest)) :=
    ⟨endsItem_space, rfl⟩
  simp only [Stmt.chars, List.append_assoc, List.cons_append]
  rw [stmt_other (startsOther ofSlot _ (endsAny_cons (by decide))), takesSlot _ endsSlot]
  simp [stored, takesValue rest ends.endsRow, Stmt.regrouped]

end Statements

/-! ### Blocks -/

section Blocks

variable {level count : Nat} {stmts : List Stmt} {rest : List Char}

theorem endsStmt_lines : EndsStmt (linesChars level stmts ++ '\n' :: rest) := by
  cases stmts with
  | nil =>
      rintro _ ⟨⟩
      decide
  | cons =>
      rintro _ ⟨⟩
      decide

theorem lines_chars {read : Reader Stmt}
    (each : ∀ one ∈ stmts, ∀ rest, EndsStmt rest →
      read (one.chars level ++ rest) = some (one.regrouped, rest))
    (few : stmts.length < count) :
    lines read level count (linesChars level stmts ++ '\n' :: rest) =
      some (Stmt.regroupedAll stmts, '\n' :: rest) := by
  obtain ⟨count, rfl⟩ := Nat.exists_eq_add_of_le' (Nat.one_le_of_lt few)
  induction stmts generalizing count with
  | nil => rfl
  | cons one others ih =>
      rw [List.forall_mem_cons] at each
      obtain ⟨count, rfl⟩ :=
        Nat.exists_eq_add_of_le' (Nat.one_le_of_lt (Nat.lt_of_succ_lt_succ few))
      have here := each.1 _ (@endsStmt_lines level others rest)
      have later := ih each.2 count (Nat.lt_of_succ_lt_succ few)
      simp [linesChars, lines, here, later, Stmt.regroupedAll]

theorem takes_block (each : ∀ one ∈ stmts, TakesStmt one) : TakesBlock stmts := by
  intro level
  cases stmts with
  | nil => exact .of_forall fun _ _ _ => rfl
  | cons first others =>
      have all := (eventually_all_finite (first :: others).finite_toSet).2
        fun one member => each one member (level + 1)
      filter_upwards [all, eventually_gt_atTop others.length] with fuel takes few rest ends
      have here := takes first List.mem_cons_self _
        (@endsStmt_lines (level + 1) others (pad level ++ '\x7d' :: rest))
      have later := @lines_chars (level + 1) fuel others (pad level ++ '\x7d' :: rest) _
        (fun one member => takes one (List.mem_cons_of_mem _ member)) few
      simp [blockChars, block, here, later, past_pad_brace, Stmt.regroupedAll]

end Blocks

mutual

/-- A statement is read back from its text. -/
theorem takesStmt : ∀ {written : Stmt}, written.Readable → TakesStmt written
  | .bind _ _ _, readable =>
      takes_bind readable.1 readable.2.1 (takes_block (takesAll readable.2.2))
  | .assign _ _, readable => takes_assign readable.1 readable.2
  | .arrayStore _ _ _, readable => takes_arrayStore ⟨readable.1, readable.2.1⟩ readable.2.2
  | .cond _ _ _, readable => takes_cond readable.1 (takes_block (takesAll readable.2.1))
      (takes_block (takesAll readable.2.2))
  | .ret _, readable => takes_ret readable
  | .assert _, readable => takes_assert readable
  | .aliased _ _, readable => takes_aliased readable.1 readable.2
  | .expr _, readable => takes_expr readable

theorem takesAll : ∀ {written : List Stmt}, Stmt.AllReadable written →
    ∀ one ∈ written, TakesStmt one
  | [], _ => nofun
  | _ :: _, readable => List.forall_mem_cons.2 ⟨takesStmt readable.1, takesAll readable.2⟩

end

end Reader

/-! ## Unambiguity -/

/-- Texts tell expressions apart, and they tell statements apart but for the side of an alias
statement on which an equation stands: the texts of two blocks are the same just if the blocks are
the same once the equations in their alias statements are moved to the right. -/
theorem text_unambiguous :
    (∀ one two : Expr, one.Readable → two.Readable → one.text = two.text → one = two) ∧
    ∀ one two : List Stmt, Stmt.AllReadable one → Stmt.AllReadable two →
      (blockText one = blockText two ↔ Stmt.regroupedAll one = Stmt.regroupedAll two) := by
  refine ⟨fun one two => Expr.text_inj, fun one two readableOne readableTwo => ⟨?_, ?_⟩⟩
  · intro same
    have ofOne := Reader.takes_block (Reader.takesAll readableOne) 0
    have ofTwo := Reader.takes_block (Reader.takesAll readableTwo) 0
    obtain ⟨fuel, first, second⟩ := (ofOne.and ofTwo).exists
    have chars : blockChars 0 one = blockChars 0 two := by
      rw [← toList_blockText readableOne, ← toList_blockText readableTwo, same]
    have both := (first [] trivial).symm.trans (chars ▸ second [] trivial)
    simpa using both
  · intro same
    rw [blockText, blockText, ← blockTo_regroupedAll one, ← blockTo_regroupedAll two, same]

/-- The two groupings of a difference have two texts, alone and in blocks. -/
theorem text_unambiguous_differences :
    let left : Expr := .binary .sub (.binary .sub (.var "a") (.var "b")) (.int 1)
    let right : Expr := .binary .sub (.var "a") (.binary .sub (.var "b") (.int 1))
    let block (shown : Expr) : List Stmt :=
      [.bind (.tuple [some "a", none]) (.call "f" []) [.aliased (.var "b") left, .ret shown]]
    (left.Readable ∧ right.Readable) ∧ left.text ≠ right.text ∧
      (Stmt.AllReadable (block left) ∧ Stmt.AllReadable (block right)) ∧
        blockText (block left) ≠ blockText (block right) := by
  intro left right block
  have a : IsName "a" := by decide
  have b : IsName "b" := by decide
  have f : IsName "f" := by decide
  have ofLeft : left.Readable := ⟨⟨a, b⟩, Int.one_nonneg⟩
  have ofRight : right.Readable := ⟨a, b, Int.one_nonneg⟩
  have ofBlock {shown : Expr} (readable : shown.Readable) : Stmt.AllReadable (block shown) :=
    ⟨⟨by simpa [Pattern.Readable] using a, ⟨f, trivial⟩, ⟨b, ofLeft⟩, readable, trivial⟩, trivial⟩
  refine ⟨⟨ofLeft, ofRight⟩, ?_, ⟨ofBlock ofLeft, ofBlock ofRight⟩, ?_⟩
  · intro same
    have one := text_unambiguous.1 left right ofLeft ofRight same
    simp [left, right] at one
  · intro same
    have one := (text_unambiguous.2 _ _ (ofBlock ofLeft) (ofBlock ofRight)).1 same
    simp [block, Stmt.regroupedAll, Stmt.regrouped, left, right] at one

/-- The text of an equation on the left of an alias statement is that of one on its right. -/
theorem text_ambiguous_alias :
    ¬ ∀ one two : List Stmt, Stmt.AllReadable one → Stmt.AllReadable two →
      blockText one = blockText two → one = two := by
  intro unambiguous
  have a : IsName "a" := by decide
  have b : IsName "b" := by decide
  have c : IsName "c" := by decide
  have same := unambiguous [.aliased (.binary .eq (.var "a") (.var "b")) (.var "c")]
    [.aliased (.var "a") (.binary .eq (.var "b") (.var "c"))] ⟨⟨⟨a, b⟩, c⟩, trivial⟩
    ⟨⟨a, b, c⟩, trivial⟩ rfl
  cases same

end GotoFree.Target
