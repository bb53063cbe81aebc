import GotoFree.Proofs.StmtText

/-!
# Indentation

A block looks the same on every level: what is written for it there is what is written for it on the
outermost level, with every line but the first further in (`Target.blockTo_indented`). To see this,
two pages that are some levels apart are written side by side. Whatever is written on both, they
stay alike but for the blanks (`Page.Beside`), as long as neither runs out of levels; none does,
since statements and blocks give back the level that they were given.
-/

namespace GotoFree

/-! ## Texts further in -/

/-- A text further in by some levels: their blanks stand behind every line feed that is followed by
another character than a line feed. -/
def indented (levels : Nat) : List Char → List Char
  | [] => []
  | [c] => [c]
  | c :: next :: rest =>
      if c = '\n' ∧ next ≠ '\n' then c :: (pad levels ++ indented levels (next :: rest))
      else c :: indented levels (next :: rest)

variable {levels : Nat} {front back chars : List Char}

theorem pad_add {level : Nat} : pad (level + levels) = pad levels ++ pad level := by
  rw [pad, Nat.mul_add, Nat.add_comm, List.replicate_add, pad, pad]

/-- Blanks bring no line break. -/
theorem newline_notMem_pad {level : Nat} : '\n' ∉ pad level := by
  intro member
  exact absurd (List.eq_of_mem_replicate member) (by decide)

/-- A text behind another one gets blanks in front if it begins a line and the line is not empty. -/
theorem indented_append_cons (front rest : List Char) (c : Char) :
    indented levels (front ++ c :: rest) = indented levels front ++
      ((if front.getLast? = some '\n' ∧ c ≠ '\n' then pad levels else []) ++
        indented levels (c :: rest)) := by
  induction front using indented.induct with
  | case1 => simp [indented]
  | case2 first =>
      simp only [List.singleton_append, indented, List.getLast?_singleton, Option.some_inj]
      split_ifs <;> rfl
  | case3 first next later begins ih =>
      rw [List.cons_append] at ih
      rw [List.cons_append, List.cons_append, indented, if_pos begins, indented, if_pos begins, ih,
        List.getLast?_cons_cons]
      simp
  | case4 first next later goesOn ih =>
      rw [List.cons_append] at ih
      rw [List.cons_append, List.cons_append, indented, if_neg goesOn, indented, if_neg goesOn, ih,
        List.getLast?_cons_cons]
      simp

/-- A text in one line has nothing to indent. -/
theorem indented_of_notMem (oneLine : '\n' ∉ chars) : indented levels chars = chars := by
  induction chars with
  | nil => rfl
  | cons c rest ih =>
      rw [List.mem_cons, not_or] at oneLine
      cases rest with
      | nil => rfl
      | cons next later => rw [indented, if_neg (by simp [Ne.symm oneLine.1]), ih oneLine.2]

/-- A line break at the end is not followed by blanks. -/
theorem indented_append_newline : indented levels (front ++ ['\n']) =
    indented levels front ++ ['\n'] := by
  simp [indented_append_cons, indented]

/-- Characters of one line behind a text get blanks in front if they begin the line. -/
theorem indented_append_line (inhabited : chars ≠ []) (oneLine : '\n' ∉ chars) :
    indented levels (front ++ chars) = indented levels front ++
      ((if front.getLast? = some '\n' then pad levels else []) ++ chars) := by
  obtain ⟨c, rest, rfl⟩ := List.exists_cons_of_ne_nil inhabited
  have other : c ≠ '\n' := fun same => oneLine (same ▸ List.mem_cons_self)
  simp only [indented_append_cons, indented_of_notMem oneLine, other, ne_eq, not_false_eq_true,
    and_true]

/-! ## Pages side by side -/

namespace Page

variable {page outer inner : Page} {text : String} {c : Char} {endLine : Bool}

/-- Two pages that are some levels apart, with texts on them from before. Since then one text has
been added to both, further in on the inner one; a line feed at its end is what makes both begin a
line. -/
structure Beside (levels : Nat) (front back : List Char) (outer inner : Page) : Prop where
  level : inner.level = outer.level + levels
  lineStart : inner.atLineStart = outer.atLineStart
  texts : ∃ added, outer.text.toList = front ++ added ∧
    inner.text.toList = back ++ indented levels added ∧
    (outer.atLineStart = true ↔ added.getLast? = some '\n')

/-- Two pages stay beside each other when a line ends. -/
theorem Beside.push_newline (beside : Beside levels front back outer inner) :
    Beside levels front back (outer.push '\n') (inner.push '\n') := by
  obtain ⟨added, ofOuter, ofInner, -⟩ := beside.texts
  refine ⟨beside.level, rfl, added ++ ['\n'], ?_, ?_, ?_⟩
  · simp [push, ofOuter]
  · simp [push, ofInner, indented_append_newline]
  · simp [push]

/-- Two pages stay beside each other when a character of a line is written. -/
theorem Beside.push_other (beside : Beside levels front back outer inner) (other : c ≠ '\n') :
    Beside levels front back (outer.push c) (inner.push c) := by
  obtain ⟨added, ofOuter, ofInner, begins⟩ := beside.texts
  have writesOuter := @extends_push outer c other
  have writesInner := @extends_push inner c other
  -- What the outer page gets is a piece of one line, so it gets blanks in front of it or none.
  have oneLine : '\n' ∉ outer.lead ++ [c] := by
    unfold lead
    split <;> simp [newline_notMem_pad, Ne.symm other]
  have leads : inner.lead =
      (if added.getLast? = some '\n' then pad levels else []) ++ outer.lead := by
    simp only [lead, beside.lineStart, beside.level, ← begins]
    split
    · exact pad_add
    · rfl
  refine ⟨?_, ?_, added ++ (outer.lead ++ [c]), ?_, ?_, ?_⟩
  · rw [writesInner.level, writesOuter.level, beside.level]
  · rw [writesInner.goesOn, writesOuter.goesOn]
  · rw [writesOuter.text, ofOuter, List.append_assoc]
  · rw [writesInner.text, ofInner, indented_append_line (by simp) oneLine, leads]
    simp
  · simp [writesOuter.goesOn, other]

/-- Two pages stay beside each other when a character is written. -/
theorem Beside.push (beside : Beside levels front back outer inner) (c : Char) :
    Beside levels front back (outer.push c) (inner.push c) := by
  by_cases feed : c = '\n'
  · exact feed ▸ beside.push_newline
  · exact beside.push_other feed

/-- Two pages stay beside each other when a text is written. -/
theorem Beside.write (beside : Beside levels front back outer inner) (text : String) :
    Beside levels front back (outer.write text) (inner.write text) := by
  unfold Page.write
  induction text.toList generalizing outer inner with
  | nil => exact beside
  | cons c rest ih => exact ih (beside.push c)

/-- Two pages stand beside each other at levels that differ so. -/
theorem Beside.atLevels (beside : Beside levels front back outer inner) {low high : Nat}
    (apart : high = low + levels) :
    Beside levels front back { outer with level := low } { inner with level := high } :=
  ⟨apart, beside.lineStart, beside.texts⟩

/-- Two pages stay beside each other when both are indented. -/
theorem Beside.indent (beside : Beside levels front back outer inner) (endLine : Bool) :
    Beside levels front back (outer.indent endLine) (inner.indent endLine) := by
  have deeper : inner.level + 1 = outer.level + 1 + levels := by rw [beside.level]; omega
  cases endLine with
  | false => exact beside.atLevels deeper
  | true => exact beside.push_newline.atLevels deeper

/-- Pages stay side by side when they are dedented unless the outer one is on the outermost level
already, which it would not leave. -/
theorem Beside.dedent (beside : Beside levels front back outer inner) (endLine : Bool)
    (deep : 0 < outer.level) :
    Beside levels front back (outer.dedent endLine) (inner.dedent endLine) := by
  have higher : inner.level - 1 = outer.level - 1 + levels := by rw [beside.level]; omega
  cases endLine with
  | false => exact beside.atLevels higher
  | true => exact (beside.atLevels higher).push_newline

/-! ## Levels -/

theorem level_push : (page.push c).level = page.level := by
  unfold push
  split_ifs <;> rfl

theorem level_write : (page.write text).level = page.level := by
  unfold write
  induction text.toList generalizing page with
  | nil => rfl
  | cons c rest ih => rw [List.foldl_cons, ih, level_push]

theorem level_indent : (page.indent endLine).level = page.level + 1 := by
  cases endLine <;> rfl

/-- On the outermost level it makes no difference whether a character begins a line. -/
theorem push_outermost (outermost : page.level = 0) (other : c ≠ '\n') :
    page.push c = ({ page with atLineStart := false } : Page).push c := by
  have noBlanks : page.text.pushn ' ' (2 * page.level) = page.text := by rw [outermost]; rfl
  cases begins : page.atLineStart <;> simp [push, other, begins, noBlanks]

end Page

/-! ## Blocks -/

namespace Target

open Page (Beside)

mutual

/-- A statement gives back the level that it was given. -/
theorem Stmt.level_writeTo : ∀ (stmt : Stmt) {page : Page}, (stmt.writeTo page).level = page.level
  | .bind _ _ body, _ => by rw [Stmt.writeTo, level_blockTo body, Page.level_write]
  | .cond _ thenBranch [], _ => by rw [Stmt.writeTo, level_blockTo thenBranch, Page.level_write]
  | .cond _ thenBranch (stmt :: rest), _ => by
      rw [Stmt.writeTo, level_blockTo (stmt :: rest), Page.level_write, level_blockTo thenBranch,
        Page.level_write]
  | .assign .., _ | .arrayStore .., _ | .ret _, _ | .assert _, _ | .aliased .., _ | .expr _, _ =>
      Page.level_write

/-- A block gives back the level that it was given. -/
theorem level_blockTo : ∀ (stmts : List Stmt) {page : Page}, (blockTo page stmts).level = page.level
  | [], _ => Page.level_write
  | stmt :: rest, page => by
      rw [blockTo, Page.level_write, Page.level_dedent, level_linesTo rest, stmt.level_writeTo,
        Page.level_indent, Page.level_write, Nat.add_sub_cancel]

theorem level_linesTo : ∀ (stmts : List Stmt) {page : Page}, (linesTo page stmts).level = page.level
  | [], _ => rfl
  | stmt :: rest, page => by
      rw [linesTo, level_linesTo rest, stmt.level_writeTo, Page.level_write]

end

section Beside

variable {levels : Nat} {front back : List Char}

mutual

/-- A statement is written side by side on two pages. -/
theorem Stmt.beside_writeTo : ∀ (stmt : Stmt) {outer inner : Page},
    Beside levels front back outer inner →
      Beside levels front back (stmt.writeTo outer) (stmt.writeTo inner)
  | .bind _ _ body, _, _, beside => beside_blockTo body (beside.write _)
  | .cond _ thenBranch [], _, _, beside => beside_blockTo thenBranch (beside.write _)
  | .cond _ thenBranch (stmt :: rest), _, _, beside => by
      rw [Stmt.writeTo, Stmt.writeTo]
      exact beside_blockTo (stmt :: rest) ((beside_blockTo thenBranch (beside.write _)).write _)
  | .assign .., _, _, beside | .arrayStore .., _, _, beside | .ret _, _, _, beside
  | .assert _, _, _, beside | .aliased .., _, _, beside | .expr _, _, _, beside => beside.write _

/-- A block is written side by side on two pages. -/
theorem beside_blockTo : ∀ (stmts : List Stmt) {outer inner : Page},
    Beside levels front back outer inner →
      Beside levels front back (blockTo outer stmts) (blockTo inner stmts)
  | [], _, _, beside => beside.write _
  | stmt :: rest, outer, inner, beside => by
      have opened := (beside.write "\x7b").indent true
      have filled := beside_linesTo rest (stmt.beside_writeTo opened)
      -- The level that the opening brace has added is still there at the closing one.
      refine (filled.dedent true ?_).write _
      rw [level_linesTo, stmt.level_writeTo, Page.level_indent]
      exact Nat.succ_pos _

/-- The statements after the first one of a block are written side by side on two pages. -/
theorem beside_linesTo : ∀ (stmts : List Stmt) {outer inner : Page},
    Beside levels front back outer inner →
      Beside levels front back (linesTo outer stmts) (linesTo inner stmts)
  | [], _, _, beside => beside
  | stmt :: rest, _, _, beside => beside_linesTo rest (stmt.beside_writeTo (beside.write _))

end

end Beside

/-- On the outermost level it makes no difference whether a block begins a line. -/
theorem blockTo_outermost {page : Page} (outermost : page.level = 0) (stmts : List Stmt) :
    blockTo page stmts = blockTo { page with atLineStart := false } stmts := by
  have same := @Page.push_outermost page '\x7b' outermost (by decide)
  cases stmts with
  | nil =>
      simp only [blockTo, Page.write]
      exact congrArg (fun page => (page.push ' ').push '\x7d') same
  | cons stmt rest =>
      rw [blockTo, blockTo]
      exact congrArg (fun page : Page =>
        ((linesTo (stmt.writeTo (page.indent true)) rest).dedent true).write "\x7d") same

/-- A block that is written in the middle of a line gives back the level that it was given. What is
added for it is what is added for it on the outermost level, further in by the level of the page. -/
theorem blockTo_indented (stmts : List Stmt) {page outermost : Page}
    (goesOn : page.atLineStart = false) (level : outermost.level = 0) :
    (blockTo page stmts).level = page.level ∧
      ∃ added : List Char,
        (blockTo outermost stmts).text.toList = outermost.text.toList ++ added ∧
        (blockTo page stmts).text.toList = page.text.toList ++ indented page.level added := by
  refine ⟨level_blockTo stmts, ?_⟩
  have start : Beside page.level outermost.text.toList page.text.toList
      { outermost with atLineStart := false } page :=
    ⟨by simp [level], goesOn, [], by simp, by simp [indented], by simp⟩
  obtain ⟨added, ofOuter, ofInner, -⟩ := (beside_blockTo stmts start).texts
  rw [← blockTo_outermost level] at ofOuter
  exact ⟨added, ofOuter, ofInner⟩

/-- A block in a branch, with a line feed in a name and an empty line at the end of the inner block:
empty lines stay empty. -/
theorem blockTo_indented_brokenName :
    let page : Page := ⟨"if x then ", 2, false⟩
    let stmts : List Stmt := [.bind (.var "a\n\nb") .null [.ret (.var "a"), .expr (.var "")]]
    let added := "\x7b\n  let a\n\n  b = null in \x7b\n    return a;\n\n  \x7d\n\x7d"
    (page.atLineStart = false ∧ Page.empty.level = 0) ∧ blockText stmts = added ∧
      (blockTo page stmts).level = 2 ∧
        (blockTo page stmts).text.toList = page.text.toList ++ indented 2 added.toList := by
  intro page stmts added
  have text : blockText stmts = added := by decide +kernel
  have ⟨restored, written, ofOuter, ofInner⟩ := @blockTo_indented stmts page .empty rfl rfl
  obtain rfl : added.toList = written := by rw [← text]; exact ofOuter
  exact ⟨⟨rfl, rfl⟩, text, restored, ofInner⟩

end Target

end GotoFree
