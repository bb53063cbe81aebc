import GotoFree.CommandLine.Report
import Mathlib.Data.List.Infix

/-!
# Marked places

A mark between two bytes that fall between characters shows which characters of the text it covers:
texts that differ as parts of one source are marked differently (`Mark.covering_inj`). The report
about a rejection marks the first place of the source that has the name of the method in quotes
(`Report.covers_iff`), or none if there is no such place.
-/

namespace GotoFree

/-! ## Bytes -/

namespace Json

/-- The bytes of a text are those of its parts. -/
theorem byteCount_append (left right : List Char) :
    byteCount (left ++ right) = byteCount left + byteCount right := by
  have shift (start : Nat) (text : List Char) :
      text.foldl (fun count c => count + c.utf8Size) start = start + byteCount text := by
    induction text generalizing start with
    | nil => rfl
    | cons c rest ih =>
        rw [byteCount, List.foldl_cons, List.foldl_cons, ih, ih (0 + _)]
        omega
  rw [byteCount, List.foldl_append, shift]
  rfl

theorem byteCount_cons (c : Char) (rest : List Char) :
    byteCount (c :: rest) = c.utf8Size + byteCount rest := by
  rw [← List.singleton_append, byteCount_append, byteCount, List.foldl_cons, List.foldl_nil,
    Nat.zero_add]

end Json

namespace Mark

/-- A text is split where a number of its bytes end. -/
theorem splitBytes_byteCount (first last : List Char) :
    splitBytes (Json.byteCount first) (first ++ last) = (first, last) := by
  induction first with
  | nil =>
      cases last with
      | nil => rfl
      | cons c rest => rfl
  | cons c rest ih =>
      have positive := c.utf8Size_pos
      have more : c.utf8Size + Json.byteCount rest - c.utf8Size = Json.byteCount rest := by omega
      rw [Json.byteCount_cons, List.cons_append, splitBytes, if_neg (by omega), more, ih]

end Mark

/-! ## Lines -/

/-- A first line and the lines behind it, put together again. -/
def joinLines (line : List Char) (lines : List (List Char)) : List Char :=
  line ++ lines.flatMap ('\n' :: ·)

/-- A text is put together again from its lines. -/
theorem joinLines_splitLines (text : List Char) :
    joinLines (splitLines text).1 (splitLines text).2 = text := by
  induction text with
  | nil => rfl
  | cons c rest ih =>
      rw [splitLines]
      dsimp only
      split_ifs with feed
      · simpa [joinLines, feed] using ih
      · simpa [joinLines] using ih

/-- The characters of a text's last line. -/
def openLine (text : List Char) : List Char := (text.reverse.takeWhile (· ≠ '\n')).reverse

/-- An end of a text begins on the same line at the same character only if it is the whole of what
is left. -/
theorem eq_nil_of_openLine_append {text more : List Char}
    (lines : lineAfter (text ++ more) = lineAfter text)
    (same : openLine (text ++ more) = openLine text) : more = [] := by
  have noFeed : '\n' ∉ more := by
    simpa [lineAfter, List.count_append, List.count_eq_zero] using lines
  have inLine : ∀ c ∈ more.reverse, decide (c ≠ '\n') = true := by
    intro c member
    refine decide_eq_true fun feed => noFeed ?_
    rwa [feed, List.mem_reverse] at member
  have longer : openLine (text ++ more) = openLine text ++ more := by
    rw [openLine, List.reverse_append, List.takeWhile_append_of_pos inLine, List.reverse_append,
      List.reverse_reverse, openLine]
  exact List.append_right_eq_self.1 (longer.symm.trans same)

/-- Of the beginnings of a text, one at most ends on a line at a character. -/
theorem eq_of_openLine_eq {text one other : List Char} (first : one <+: text)
    (second : other <+: text) (lines : lineAfter one = lineAfter other)
    (same : openLine one = openLine other) : one = other := by
  rcases List.prefix_or_prefix_of_prefix first second with ⟨more, rfl⟩ | ⟨more, rfl⟩
  · rw [eq_nil_of_openLine_append lines.symm same.symm, List.append_nil]
  · rw [eq_nil_of_openLine_append lines same, List.append_nil]

/-! ## Marks -/

namespace Mark

/-- The mark of a part of a text, given what stands before the part. -/
def covering (source before part : List Char) : Mark :=
  between source (Json.byteCount before) (Json.byteCount before + Json.byteCount part)

/-- A label covers a part of the text by its lines and columns. -/
theorem covering_eq (before part after : List Char) :
    covering (before ++ part ++ after) before part =
      { line := lineAfter before
        before := openLine before
        marked := (splitLines part).1
        more := (splitLines part).2
        after := after.takeWhile (· ≠ '\n') } := by
  simp only [covering, between, List.append_assoc, splitBytes_byteCount, Nat.add_sub_cancel_left]
  rfl

/-- Different parts of a text are marked differently. -/
theorem covering_inj {source before part after before' part' after' : List Char}
    (one : source = before ++ part ++ after) (other : source = before' ++ part' ++ after')
    (same : covering source before part = covering source before' part') :
    before = before' ∧ part = part' := by
  have marks : covering (before ++ part ++ after) before part =
      covering (before' ++ part' ++ after') before' part' := by rwa [← one, ← other]
  rw [covering_eq, covering_eq, Mark.mk.injEq] at marks
  obtain ⟨lines, begins, firsts, others, -⟩ := marks
  have starts : before = before' := by
    have first : before <+: source := ⟨part ++ after, by rw [one, List.append_assoc]⟩
    have second : before' <+: source := ⟨part' ++ after', by rw [other, List.append_assoc]⟩
    exact eq_of_openLine_eq first second lines begins
  refine ⟨starts, ?_⟩
  rw [← joinLines_splitLines part, firsts, others, joinLines_splitLines]

end Mark

/-! ## The first place of a text -/

/-- A text occurs behind another one in a source, and at no earlier place. -/
def FirstBehind (sought source before : List Char) : Prop :=
  before ++ sought <+: source ∧
    ∀ ⦃earlier⦄, earlier ++ sought <+: source → before.length ≤ earlier.length

/-- A text first occurs in one place only. -/
theorem FirstBehind.eq {sought source before other : List Char}
    (first : FirstBehind sought source before) (second : FirstBehind sought source other) :
    before = other := by
  have starts : before <+: source := (List.prefix_append before sought).trans first.1
  have starts' : other <+: source := (List.prefix_append other sought).trans second.1
  have one := first.2 second.1
  have two := second.2 first.1
  exact (List.prefix_of_prefix_length_le starts starts' one).eq_of_length (by omega)

/-- A text that is found stands where it first occurs. -/
theorem exists_of_findText {sought source : List Char} {count : Nat}
    (found : findText sought source = some count) :
    ∃ before, FirstBehind sought source before ∧ before.length = count := by
  induction source generalizing count with
  | nil =>
      rw [findText] at found
      split at found
      · next empty =>
        cases found
        rw [List.isEmpty_iff] at empty
        exact ⟨[], ⟨by simp [empty], by simp⟩, rfl⟩
      · cases found
  | cons c rest ih =>
      rw [findText] at found
      split at found
      · next here =>
        cases found
        exact ⟨[], ⟨List.isPrefixOf_iff_prefix.1 here, by simp⟩, rfl⟩
      · next elsewhere =>
        obtain ⟨fewer, later, rfl⟩ := Option.map_eq_some_iff.1 found
        obtain ⟨before, ⟨occurs, least⟩, rfl⟩ := ih later
        refine ⟨c :: before, ⟨(List.prefix_cons_inj c).2 occurs, fun earlier sooner => ?_⟩, rfl⟩
        cases earlier with
        | nil => exact absurd (List.isPrefixOf_iff_prefix.2 sooner) elsewhere
        | cons d earlier =>
            obtain ⟨-, later⟩ := List.cons_prefix_cons.1 sooner
            exact Nat.succ_le_succ (least later)

/-- A text that is not found is no part of the source. -/
theorem not_infix_of_findText {sought source : List Char}
    (missing : findText sought source = none) : ¬ sought <:+: source := by
  induction source with
  | nil =>
      rw [findText] at missing
      simp_all
  | cons c rest ih =>
      rw [findText] at missing
      split at missing
      · cases missing
      · next elsewhere =>
        rw [List.infix_cons_iff, not_or, ← List.isPrefixOf_iff_prefix]
        exact ⟨elsewhere, ih (Option.map_eq_none_iff.1 missing)⟩

/-- Whether a text first occurs behind another one is decided by looking for it. -/
theorem firstBehind_iff {sought source before : List Char} :
    FirstBehind sought source before ↔
      findText sought source = some before.length ∧ before <+: source := by
  constructor
  · intro first
    refine ⟨?_, (List.prefix_append before sought).trans first.1⟩
    cases found : findText sought source with
    | none =>
        have occurs := (List.suffix_append before sought).isInfix.trans first.1.isInfix
        exact absurd occurs (not_infix_of_findText found)
    | some count =>
        obtain ⟨other, second, rfl⟩ := exists_of_findText found
        rw [first.eq second]
  · rintro ⟨found, starts⟩
    obtain ⟨other, first, long⟩ := exists_of_findText found
    have starts' := (List.prefix_append other sought).trans first.1
    rwa [(List.prefix_of_prefix_length_le starts starts' long.ge).eq_of_length long.symm]

instance {sought source before : List Char} : Decidable (FirstBehind sought source before) :=
  decidable_of_iff _ firstBehind_iff.symm

/-! ## The place that a report marks -/

namespace Report

/-- A report marks a part of a source, given what stands before the part. -/
def Covers (report : Report) (source : String) (before part : List Char) : Prop :=
  ∃ message, report.label = some (Mark.covering source.toList before part, message)

variable {source : String} {reason : Rejection} {method : MethodId}

/-- The report about a rejection marks what first has the form of the quoted name of a method. -/
theorem label_ofRejection (source : String) (blamed : reason.method? = some method) :
    (∃ before, FirstBehind (quotedName method) source.toList before ∧
      (ofRejection source reason).label =
        some (Mark.covering source.toList before (quotedName method), "in this method")) ∨
    (¬ quotedName method <:+: source.toList ∧ (ofRejection source reason).label = none) := by
  cases found : findText (quotedName method) source.toList with
  | none =>
      refine .inr ⟨not_infix_of_findText found, ?_⟩
      simp [ofRejection, blamed, firstMention, found]
  | some count =>
      obtain ⟨before, first, rfl⟩ := exists_of_findText found
      refine .inl ⟨before, first, ?_⟩
      have taken : source.toList.take before.length = before :=
        List.prefix_iff_eq_take.1 ((List.prefix_append _ _).trans first.1) |>.symm
      simp [ofRejection, blamed, firstMention, found, taken, Mark.covering]

/-- A reason that blames a method has no label if the method is named nowhere. -/
theorem label_eq_none_iff (blamed : reason.method? = some method) :
    (ofRejection source reason).label = none ↔ ¬ quotedName method <:+: source.toList := by
  rcases label_ofRejection source blamed with ⟨before, first, label⟩ | ⟨missing, label⟩
  · have occurs := (List.suffix_append before _).isInfix.trans first.1.isInfix
    simp [label, occurs]
  · simp [label, missing]

/-- The report about a rejection marks a part of the source exactly if the part is the quoted name
of the method and the name stands nowhere before it. -/
theorem covers_iff (blamed : reason.method? = some method) {before part after : List Char}
    (parts : source.toList = before ++ part ++ after) :
    (ofRejection source reason).Covers source before part ↔
      part = quotedName method ∧ FirstBehind (quotedName method) source.toList before := by
  rcases label_ofRejection source blamed with ⟨place, first, label⟩ | ⟨missing, label⟩
  · constructor
    · rintro ⟨message, covers⟩
      rw [label, Option.some.injEq, Prod.mk.injEq] at covers
      obtain ⟨behind, parts'⟩ := first.1
      obtain ⟨rfl, rfl⟩ := Mark.covering_inj parts'.symm parts covers.1
      exact ⟨rfl, first⟩
    · rintro ⟨rfl, here⟩
      obtain rfl := here.eq first
      exact ⟨_, label⟩
  · constructor
    · rintro ⟨message, covers⟩
      rw [label] at covers
      cases covers
    · rintro ⟨-, here⟩
      exact absurd ((List.suffix_append before _).isInfix.trans here.1.isInfix) missing

end Report

end GotoFree
