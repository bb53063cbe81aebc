import GotoFree.Proofs.ExprText
import GotoFree.Target.Program

/-!
# The text of statements

A block is written as the characters `blockChars`, every line of it behind the indentation of its
level. A statement is readable if its variables are named by words and its expressions are readable.
-/

namespace GotoFree

/-! ## Pages -/

/-- The indentation of a level. -/
def pad (level : Nat) : List Char := List.replicate (2 * level) ' '

namespace Page

variable {page middle later : Page} {front back chars : List Char}

/-- What stands in front of the next character. -/
def lead (page : Page) : List Char := if page.atLineStart then pad page.level else []

/-- A page has some characters more, and its last line goes on. -/
structure Extends (page later : Page) (chars : List Char) : Prop where
  text : later.text.toList = page.text.toList ++ chars
  level : later.level = page.level
  goesOn : later.atLineStart = false

theorem Extends.trans (first : Extends page middle front) (second : Extends middle later back) :
    Extends page later (front ++ back) where
  text := by rw [second.text, first.text, List.append_assoc]
  level := second.level.trans first.level
  goesOn := second.goesOn

theorem Extends.lead_eq (shown : Extends page later chars) : later.lead = [] := by
  rw [lead, shown.goesOn]
  rfl

theorem toList_pushn {text : String} {c : Char} {count : Nat} :
    (text.pushn c count).toList = text.toList ++ List.replicate count c := by
  rw [String.pushn_eq_repeat_push]
  induction count with
  | zero => simp [Nat.repeat]
  | succ count ih => rw [Nat.repeat, String.toList_push, ih, List.append_assoc,
      ← List.replicate_succ']

theorem extends_push {c : Char} (other : c ≠ '\n') :
    Extends page (page.push c) (page.lead ++ [c]) := by
  unfold push lead
  rw [if_neg other]
  split
  · next starts => constructor <;> simp [toList_pushn, pad]
  · next goesOn => constructor <;> simp [goesOn]

theorem extends_foldl (oneLine : '\n' ∉ chars) (goesOn : page.atLineStart = false) :
    Extends page (chars.foldl push page) chars := by
  induction chars generalizing page with
  | nil => exact ⟨by simp, rfl, goesOn⟩
  | cons c rest ih =>
      rw [List.mem_cons, not_or] at oneLine
      have first := @extends_push page c (Ne.symm oneLine.1)
      rw [lead, goesOn] at first
      exact first.trans (ih oneLine.2 first.goesOn)

/-- Text without a line end is written behind the indentation of its line. -/
theorem extends_write {text : String} (same : text.toList = chars) (inhabited : chars ≠ [])
    (oneLine : '\n' ∉ chars) : Extends page (page.write text) (page.lead ++ chars) := by
  obtain ⟨c, rest, rfl⟩ := List.exists_cons_of_ne_nil inhabited
  rw [write, same, List.foldl_cons]
  rw [List.mem_cons, not_or] at oneLine
  have first := @extends_push page c (Ne.symm oneLine.1)
  have whole := first.trans (extends_foldl oneLine.2 first.goesOn)
  rwa [List.append_assoc] at whole

theorem toList_newline : page.newline.text.toList = page.text.toList ++ ['\n'] := by
  simp [newline, push]

theorem level_newline : page.newline.level = page.level := rfl

theorem lead_newline : page.newline.lead = pad page.level := rfl

theorem toList_indent : (page.indent true).text.toList = page.text.toList ++ ['\n'] :=
  toList_newline

theorem lead_indent : (page.indent true).lead = pad (page.level + 1) := rfl

theorem toList_dedent : (page.dedent true).text.toList = page.text.toList ++ ['\n'] :=
  toList_newline

theorem level_dedent : (page.dedent true).level = page.level - 1 := rfl

theorem lead_dedent : (page.dedent true).lead = pad (page.level - 1) := rfl

/-- An indented text behind an opening brace, and the closing one on a line of its own. -/
theorem Extends.closed {line : Page} (opened : Extends page line front)
    (inner : Extends (line.indent true) later ((line.indent true).lead ++ chars)) :
    Extends page ((later.dedent true).write "\x7d")
      (front ++ '\n' :: (pad (page.level + 1) ++
        (chars ++ '\n' :: (pad page.level ++ ['\x7d'])))) := by
  have last := @extends_write (later.dedent true) ['\x7d'] "\x7d" rfl (by simp) (by simp)
  have level : later.level = page.level + 1 := inner.level.trans (congrArg (· + 1) opened.level)
  refine ⟨?_, ?_, last.goesOn⟩
  · rw [last.text, toList_dedent, inner.text, toList_indent, opened.text, lead_dedent, level,
      lead_indent, opened.level]
    simp
  · rw [last.level, level_dedent, level, Nat.add_sub_cancel]

end Page

namespace Target

/-! ## Readable statements -/

/-- A pattern that can be read back from its text: its variables are named by words. -/
def Pattern.Readable : Pattern → Prop
  | .var name => IsName name
  | .tuple names => ∀ name, some name ∈ names → IsName name

mutual

/-- A statement that can be read back from its text: the variables in it are named by words, and so
on in its expressions. -/
def Stmt.Readable : Stmt → Prop
  | .bind pattern value body => pattern.Readable ∧ value.Readable ∧ Stmt.AllReadable body
  | .assign target value => IsName target ∧ value.Readable
  | .arrayStore array position value =>
      array.Readable ∧ position.Readable ∧ value.Readable
  | .cond condition thenBranch elseBranch =>
      condition.Readable ∧ Stmt.AllReadable thenBranch ∧ Stmt.AllReadable elseBranch
  | .ret value | .assert value | .expr value => value.Readable
  | .aliased left right => left.Readable ∧ right.Readable

/-- Statements that can be read back from their texts. -/
def Stmt.AllReadable : List Stmt → Prop
  | [] => True
  | stmt :: rest => stmt.Readable ∧ Stmt.AllReadable rest

end

/-! ## Characters -/

/-- The characters of a position of a tuple pattern. -/
def slotChars (name : Option String) : List Char := (name.getD "_").toList

/-- The characters of the text of a pattern. -/
def Pattern.chars (pattern : Pattern) : List Char := pattern.text.toList

theorem Pattern.chars_var {name : String} : (Pattern.var name).chars = name.toList := rfl

theorem Pattern.chars_tuple {names : List (Option String)} :
    (Pattern.tuple names).chars = '(' :: (separated (names.map slotChars) ++ [')']) := by
  simp [chars, text, separated, Function.comp_def]
  rfl

/-- The words that statements start with. -/
def letWord : List Char := ['l', 'e', 't']

@[inherit_doc letWord]
def ifWord : List Char := ['i', 'f']

@[inherit_doc letWord]
def returnWord : List Char := ['r', 'e', 't', 'u', 'r', 'n']

@[inherit_doc letWord]
def assertWord : List Char := ['a', 's', 's', 'e', 'r', 't']

@[inherit_doc letWord]
def aliasWord : List Char := ['a', 'l', 'i', 'a', 's']

/-- The characters in front of a second branch. -/
def elseChars : List Char := [' ', 'e', 'l', 's', 'e', ' ']

mutual

/-- The characters of a statement on a level. -/
def Stmt.chars (level : Nat) : Stmt → List Char
  | .bind pattern value body =>
      letWord ++ ' ' :: (pattern.chars ++ ' ' :: '=' :: ' ' ::
        (value.chars ++ ' ' :: 'i' :: 'n' :: ' ' :: blockChars level body))
  | .assign target value => target.toList ++ ' ' :: ':' :: '=' :: ' ' :: value.chars
  | .arrayStore array position value =>
      (Expr.index array position).chars ++ ' ' :: '<' :: '-' :: ' ' :: value.chars
  | .cond condition thenBranch elseBranch =>
      ifWord ++ ' ' :: (condition.chars ++ ' ' :: 't' :: 'h' :: 'e' :: 'n' :: ' ' ::
        (blockChars level thenBranch ++
          match elseBranch with
          | [] => []
          | stmt :: rest => elseChars ++ blockChars level (stmt :: rest)))
  | .ret value => returnWord ++ ' ' :: value.chars
  | .assert condition => assertWord ++ '(' :: (condition.chars ++ [')'])
  | .aliased left right =>
      aliasWord ++ '(' :: (left.chars ++ ' ' :: '=' :: ' ' :: (right.chars ++ [')']))
  | .expr value => value.chars

/-- The characters of a block on a level. -/
def blockChars (level : Nat) : List Stmt → List Char
  | [] => ['\x7b', ' ', '\x7d']
  | stmt :: rest =>
      '\x7b' :: '\n' :: (pad (level + 1) ++ (stmt.chars (level + 1) ++
        (linesChars (level + 1) rest ++ '\n' :: (pad level ++ ['\x7d']))))

/-- The characters of the statements after the first one of a block. -/
def linesChars (level : Nat) : List Stmt → List Char
  | [] => []
  | stmt :: rest =>
      ';' :: '\n' :: (pad level ++ (stmt.chars level ++ linesChars level rest))

end

theorem newline_notMem_slotChars {name : Option String}
    (readable : ∀ word, name = some word → IsName word) : '\n' ∉ slotChars name := by
  cases name with
  | none => decide
  | some word => exact (readable word rfl).newline_notMem

theorem Pattern.newline_notMem_chars {pattern : Pattern} (readable : pattern.Readable) :
    '\n' ∉ pattern.chars := by
  cases pattern with
  | var name => exact IsName.newline_notMem readable
  | tuple names =>
      have free : ∀ text ∈ names.map slotChars, '\n' ∉ text := by
        refine List.forall_mem_map.2 fun name member => newline_notMem_slotChars ?_
        rintro word rfl
        exact readable word member
      simp [chars_tuple, newline_notMem_separated free]

/-! ## Writing -/

section Writing

variable {page : Page} {pattern : Pattern} {value condition : Expr}
  {body thenBranch elseBranch : List Stmt}

/-- A block is written as its characters, on whatever page. -/
def IsWrittenBlock (stmts : List Stmt) : Prop :=
  ∀ page : Page, page.Extends (blockTo page stmts) (page.lead ++ blockChars page.level stmts)

/-- A block that follows on a line is written behind it. -/
theorem IsWrittenBlock.behind {line : Page} {chars : List Char} (written : IsWrittenBlock body)
    (front : page.Extends line chars) :
    page.Extends (blockTo line body) (chars ++ blockChars page.level body) := by
  have block := written line
  rw [front.lead_eq, front.level, List.nil_append] at block
  exact front.trans block

theorem extends_bind (ofPattern : '\n' ∉ pattern.chars) (ofValue : '\n' ∉ value.chars)
    (written : IsWrittenBlock body) :
    page.Extends ((Stmt.bind pattern value body).writeTo page)
      (page.lead ++ (Stmt.bind pattern value body).chars page.level) := by
  have line : page.Extends (page.write ("let " ++ pattern.text ++ " = " ++ value.text ++ " in "))
      (page.lead ++ (letWord ++ ' ' :: (pattern.chars ++ ' ' :: '=' :: ' ' ::
        (value.chars ++ [' ', 'i', 'n', ' '])))) :=
    Page.extends_write (by simp [Pattern.chars, Expr.chars, letWord]) (by simp)
      (by simp [ofPattern, ofValue, letWord])
  rw [Stmt.writeTo, Stmt.chars]
  simpa using written.behind line

theorem extends_cond (ofCondition : '\n' ∉ condition.chars) (ofThen : IsWrittenBlock thenBranch)
    (ofElse : IsWrittenBlock elseBranch) :
    page.Extends ((Stmt.cond condition thenBranch elseBranch).writeTo page)
      (page.lead ++ (Stmt.cond condition thenBranch elseBranch).chars page.level) := by
  have line : page.Extends (page.write ("if " ++ condition.text ++ " then "))
      (page.lead ++ (ifWord ++ ' ' :: (condition.chars ++ [' ', 't', 'h', 'e', 'n', ' ']))) :=
    Page.extends_write (by simp [Expr.chars, ifWord]) (by simp) (by simp [ofCondition, ifWord])
  have first := ofThen.behind line
  cases elseBranch with
  | nil =>
      rw [Stmt.writeTo, Stmt.chars]
      simpa using first
  | cons stmt rest =>
      have middle := first.trans (@Page.extends_write _ elseChars " else " rfl (by simp [elseChars])
        (by simp [elseChars]))
      rw [first.lead_eq, List.nil_append] at middle
      rw [Stmt.writeTo, Stmt.chars]
      simpa using ofElse.behind middle

/-- A statement that is written on one line. -/
theorem extends_line {stmt : Stmt} {text : String} (writes : stmt.writeTo page = page.write text)
    (same : text.toList = stmt.chars page.level) (inhabited : stmt.chars page.level ≠ [])
    (oneLine : '\n' ∉ stmt.chars page.level) :
    page.Extends (stmt.writeTo page) (page.lead ++ stmt.chars page.level) :=
  writes ▸ Page.extends_write same inhabited oneLine

end Writing

mutual

/-- A statement is written as its characters. -/
theorem Stmt.extends_writeTo : ∀ {stmt : Stmt}, stmt.Readable → ∀ page : Page,
    page.Extends (stmt.writeTo page) (page.lead ++ stmt.chars page.level)
  | .bind _ _ _, readable, _ => extends_bind (Pattern.newline_notMem_chars readable.1)
      (Expr.newline_notMem_chars readable.2.1) (extends_blockTo readable.2.2)
  | .cond _ _ _, readable, _ => extends_cond (Expr.newline_notMem_chars readable.1)
      (extends_blockTo readable.2.1) (extends_blockTo readable.2.2)
  | .assign target value, readable, _ => by
      have ofTarget := readable.1.newline_notMem
      have ofValue := Expr.newline_notMem_chars readable.2
      exact extends_line rfl (by simp [Stmt.chars, Expr.chars]) (by simp [Stmt.chars])
        (by simp [Stmt.chars, ofTarget, ofValue])
  | .arrayStore array position value, readable, _ => by
      have ofSlot := @Expr.newline_notMem_chars (.index array position) ⟨readable.1, readable.2.1⟩
      have ofValue := Expr.newline_notMem_chars readable.2.2
      exact extends_line rfl (by simp [Stmt.chars, Expr.chars]) (by simp [Stmt.chars])
        (by simp [Stmt.chars, ofSlot, ofValue])
  | .ret value, readable, _ => by
      have ofValue := @Expr.newline_notMem_chars value readable
      exact extends_line rfl (by simp [Stmt.chars, Expr.chars, returnWord]) (by simp [Stmt.chars])
        (by simp [Stmt.chars, ofValue, returnWord])
  | .assert condition, readable, _ => by
      have ofCondition := @Expr.newline_notMem_chars condition readable
      exact extends_line rfl (by simp [Stmt.chars, Expr.chars, assertWord]) (by simp [Stmt.chars])
        (by simp [Stmt.chars, ofCondition, assertWord])
  | .aliased left right, readable, _ => by
      have ofLeft := Expr.newline_notMem_chars readable.1
      have ofRight := Expr.newline_notMem_chars readable.2
      exact extends_line rfl (by simp [Stmt.chars, Expr.chars, aliasWord]) (by simp [Stmt.chars])
        (by simp [Stmt.chars, ofLeft, ofRight, aliasWord])
  | .expr value, readable, _ => by
      obtain ⟨c, rest, same, -⟩ := @Expr.starts_chars value readable
      exact extends_line rfl rfl (by simp [Stmt.chars, same])
        (@Expr.newline_notMem_chars value readable)

/-- A block is written as its characters. -/
theorem extends_blockTo : ∀ {stmts : List Stmt}, Stmt.AllReadable stmts → IsWrittenBlock stmts
  | [], _, _ => Page.extends_write rfl (List.cons_ne_nil _ _) (by simp [blockChars])
  | _ :: rest, readable, page => by
      have opened := @Page.extends_write page ['\x7b'] "\x7b" rfl (by simp) (by simp)
      have first := Stmt.extends_writeTo readable.1 ((page.write "\x7b").indent true)
      have inner := first.trans (extends_linesTo readable.2 _ first.goesOn)
      have level : ((page.write "\x7b").indent true).level = page.level + 1 :=
        congrArg (· + 1) opened.level
      rw [List.append_assoc, level, first.level, level] at inner
      rw [blockTo, blockChars]
      simpa using opened.closed inner

/-- The statements after the first one of a block are written as their characters. -/
theorem extends_linesTo : ∀ {stmts : List Stmt}, Stmt.AllReadable stmts → ∀ page : Page,
    page.atLineStart = false → page.Extends (linesTo page stmts) (linesChars page.level stmts)
  | [], _, _, goesOn => ⟨by simp [linesTo, linesChars], rfl, goesOn⟩
  | _ :: _, readable, page, goesOn => by
      have ended := @Page.extends_push page ';' (by decide)
      rw [Page.lead, goesOn] at ended
      have first := Stmt.extends_writeTo readable.1 (page.push ';').newline
      have whole := first.trans (extends_linesTo readable.2 _ first.goesOn)
      refine ⟨?_, whole.level.trans ended.level, whole.goesOn⟩
      refine whole.text.trans ?_
      rw [Page.toList_newline, ended.text, Page.lead_newline, first.level, Page.level_newline,
        ended.level, linesChars]
      simp

end

/-- The text of a block is its characters. -/
theorem toList_blockText {stmts : List Stmt} (readable : Stmt.AllReadable stmts) :
    (blockText stmts).toList = blockChars 0 stmts :=
  (extends_blockTo readable .empty).text

end Target

end GotoFree
