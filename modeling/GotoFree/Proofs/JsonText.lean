import GotoFree.Json.Reader
import GotoFree.Json.Value
import GotoFree.Proofs.Check
import GotoFree.Proofs.Names

/-!
# Reading back written values

A reader of a shape takes the text that a value of that shape is written as, whatever stands behind
it in a written text (`Json.Takes`). Each reader of scalars and containers has a lemma of this form;
it says how many containers the reader has to be allowed to enter.
-/

namespace GotoFree.Json

/-! ## Strings -/

/-- A control character is read back from its two hexadecimal digits. -/
theorem hexNumber_hexDigit : ∀ n < 32,
    hexNumber '0' '0' (hexDigit (n / 16)) (hexDigit (n % 16)) = some n := by
  decide

/-- A character is read back from its escaped form. -/
theorem stringTail_escaped (c : Char) (done rest : List Char) :
    stringTail done (escaped c ++ rest) = stringTail (c :: done) rest := by
  unfold escaped
  split_ifs with quote backslash feed ret tab backspace form control
  · subst quote; simp [stringTail, letterEscape]
  · subst backslash; simp [stringTail, letterEscape]
  · subst feed; simp [stringTail, letterEscape]
  · subst ret; simp [stringTail, letterEscape]
  · subst tab; simp [stringTail, letterEscape]
  · have same : c = Char.ofNat 8 := by rw [← backspace, Char.ofNat_toNat]
    simp [stringTail, letterEscape, same]
  · have same : c = Char.ofNat 12 := by rw [← form, Char.ofNat_toNat]
    simp [stringTail, letterEscape, same]
  · have known := hexNumber_hexDigit c.toNat control
    have low : isLowSurrogate c.toNat = false := by simp [isLowSurrogate]; omega
    have high : isHighSurrogate c.toNat = false := by simp [isHighSurrogate]; omega
    simp [stringTail, known, low, high]
  · simp [stringTail, backslash, control]

/-- Escaped characters are read back up to the quote that closes the string. -/
theorem stringTail_flatMap (text done rest : List Char) :
    stringTail done (text.flatMap escaped ++ '"' :: rest) =
      .ok (String.ofList (done.reverse ++ text), rest) := by
  induction text generalizing done with
  | nil => simp [stringTail]
  | cons c others ih =>
      rw [List.flatMap_cons, List.append_assoc, stringTail_escaped, ih]
      simp

/-- A quoted text is read back from behind its opening quote. -/
theorem exists_quoted (text : String) : ∃ tail, quoted text = '"' :: tail ∧
    ∀ rest, stringTail [] (tail ++ rest) = .ok (text, rest) := by
  refine ⟨text.toList.flatMap escaped ++ ['"'], rfl, fun rest => ?_⟩
  rw [List.append_assoc, List.singleton_append, stringTail_flatMap, List.reverse_nil,
    List.nil_append, String.ofList_toList]

/-- The name of a member is read back. -/
theorem memberName_quoted (text : String) (rest : List Char) :
    memberName (quoted text ++ rest) = .ok (text, rest) := by
  obtain ⟨tail, starts, reads⟩ := exists_quoted text
  rw [starts, List.cons_append, memberName, reads]

/-! ## Numbers -/

/-- A number ends before the text: nothing there can belong to it. -/
def EndsNumber (rest : List Char) : Prop :=
  ∀ c ∈ rest.head?, c.isDigit = false ∧ c ≠ '.' ∧ c ≠ 'e' ∧ c ≠ 'E'

/-- The digits of a number have its value. -/
theorem decimal_digits (number : Nat) : decimal (digits number) = number := by
  have back : Nat.ofDigitChars 10 (digits number) 0 = number :=
    Nat.ofDigitChars_toDigits (by omega) (by omega)
  rw [Nat.ofDigitChars_eq_foldl] at back
  simpa only [decimal, digitValue, Nat.mul_comm 10] using back

/-- Only zero is written with a zero in front. -/
theorem head_digits {number : Nat} (positive : 0 < number) : (digits number).head? ≠ some '0' := by
  induction number using Nat.strongRecOn with
  | ind number ih =>
      unfold digits
      rw [Nat.toDigits_eq_if (by omega)]
      split
      · next small =>
        have digit : ∀ n < 10, 0 < n → [n.digitChar].head? ≠ some '0' := by decide
        exact digit number small positive
      · next large =>
        rw [List.head?_append_of_ne_nil _ Nat.toDigits_ne_nil]
        exact ih (number / 10) (by omega) (by omega)

/-- The digits of a number are read to their end. -/
theorem number_digits (negative : Bool) (n : Nat) {rest : List Char} (ends : EndsNumber rest) :
    number negative (digits n ++ rest) = .ok (⟨negative, digits n, none, none⟩, rest) := by
  obtain ⟨taken, left⟩ := @takeWhile_digits n rest fun c first => (ends c first).1
  have whole : someDigits (digits n ++ rest) = .ok (digits n, rest) := by
    cases listed : digits n with
    | nil => exact absurd listed Nat.toDigits_ne_nil
    | cons c others =>
        have digit : c.isDigit = true := isDigit_of_mem_digits (listed ▸ List.mem_cons_self)
        rw [listed] at taken left
        rw [List.cons_append] at *
        rw [someDigits, if_pos digit, taken, left]
  have noFraction : fraction rest = .ok (none, rest) := by
    cases rest with
    | nil => rfl
    | cons c rest =>
        have other := (ends c rfl).2.1
        unfold fraction
        split
        · next same => exact absurd (List.cons.inj same).1 other
        · rfl
  have noExponent : exponent rest = .ok (none, rest) := by
    cases rest with
    | nil => rfl
    | cons c rest =>
        have other := (ends c rfl).2.2
        unfold exponent
        split
        · next same => exact absurd (List.cons.inj same).1 other.1
        · next same => exact absurd (List.cons.inj same).1 other.2
        · rfl
  have plain : ¬ ((digits n).head? = some '0' ∧ 1 < (digits n).length) := by
    rintro ⟨zero, long⟩
    rcases Nat.eq_zero_or_pos n with rfl | positive
    · simp [digits] at long
    · exact head_digits positive zero
  simp only [number, whole, ok_bind, if_neg plain, noFraction, noExponent, pure_eq_ok]

namespace Number

/-- A number grows with each digit that is read. -/
theorem le_foldl_digits (digits : List Char) (start : Nat) :
    start ≤ digits.foldl (fun value digit => value * 10 + digitValue digit) start := by
  induction digits generalizing start with
  | nil => exact Nat.le_refl _
  | cons digit rest ih =>
      have := ih (start * 10 + digitValue digit)
      simp only [List.foldl_cons]
      omega

/-- Digits add up exactly below the limit of words. -/
theorem appendDigits_eq {digits : List Char} {start : Nat}
    (fits : digits.foldl (fun value digit => value * 10 + digitValue digit) start < wordLimit) :
    appendDigits start digits =
      (digits.foldl (fun value digit => value * 10 + digitValue digit) start, []) := by
  induction digits generalizing start with
  | nil => rfl
  | cons digit rest ih =>
      rw [List.foldl_cons] at fits
      have here := Nat.lt_of_le_of_lt (le_foldl_digits rest _) fits
      rw [appendDigits]
      simp only [if_pos here]
      exact ih fits

/-- A number below the limit of words is finite. -/
theorem isFinite_of_lt {negative : Bool} {n : Nat} (small : n < wordLimit) :
    isFinite ⟨negative, digits n, none, none⟩ = true := by
  have fits : decimal (digits n) < wordLimit := by rwa [decimal_digits]
  have leads : leading ⟨negative, digits n, none, none⟩ = (n, 0) := by
    have whole : appendDigits 0 (digits n) = (n, []) := by
      rw [appendDigits_eq fits]
      exact congrArg (·, []) (decimal_digits n)
    simp [leading, whole, appendDigits]
  simp [isFinite, leads]

/-- A number within bounds is taken for the integer that it is. -/
theorem within_digits {least most : Int} {n : Nat} {negative : Bool} {rest : List Char}
    (small : n < wordLimit) (nonzero : negative = true → n ≠ 0) {value : Int}
    (same : value = if negative then -(n : Int) else n) (above : least ≤ value)
    (below : value ≤ most) :
    within least most ⟨negative, digits n, none, none⟩ rest = .ok (value, rest) := by
  have isInteger : integer ⟨negative, digits n, none, none⟩ = value := by
    simp only [integer, decimal_digits, same]
  have notZero : (negative && isZero ⟨negative, digits n, none, none⟩) = false := by
    cases negative with
    | false => rfl
    | true => simpa [isZero, decimal_digits, isIntegral] using nonzero rfl
  have inside : ¬ (value < least ∨ most < value) := by omega
  simp only [within, isFinite_of_lt small, isInteger, notZero]
  simp [isIntegral, inside]

end Number

/-- An integer is written by its digits, behind a sign if it is negative. -/
theorem toList_toString_int (value : Int) : (toString value).toList =
    if value < 0 then '-' :: digits value.natAbs else digits value.natAbs := by
  cases value with
  | ofNat n => simp [digits, toString, Int.repr]
  | negSucc n => simp [digits, toString, Int.repr, Int.negSucc_lt_zero]

theorem skipBlanks_cons {c : Char} (black : isBlank c = false) (rest : List Char) :
    skipBlanks (c :: rest) = c :: rest := by
  simp [skipBlanks, black]

theorem isBlank_of_isDigit {c : Char} (digit : c.isDigit = true) : isBlank c = false := by
  simp only [isBlank, Bool.or_eq_false_iff, decide_eq_false_iff_not]
  refine ⟨⟨⟨?_, ?_⟩, ?_⟩, ?_⟩ <;> rintro rfl <;> cases digit

/-- A text of digits begins with one. -/
theorem exists_digits (number : Nat) :
    ∃ c rest, digits number = c :: rest ∧ c.isDigit = true := by
  cases listed : digits number with
  | nil => exact absurd listed Nat.toDigits_ne_nil
  | cons c rest => exact ⟨c, rest, rfl, isDigit_of_mem_digits (listed ▸ List.mem_cons_self)⟩

/-- An integer is read back, if it is within bounds. -/
theorem integer_chars {least most value : Int} {allowance : Nat} {rest : List Char}
    (above : least ≤ value) (below : value ≤ most) (small : value.natAbs < Number.wordLimit)
    (ends : EndsNumber rest) :
    integer least most allowance ((toString value).toList ++ rest) = .ok (value, rest) := by
  rw [toList_toString_int]
  split
  · next negative =>
    have read := number_digits true value.natAbs ends
    rw [List.cons_append, integer, skipBlanks_cons (by decide)]
    simp only [read, ok_bind]
    have same : value = if true then -(value.natAbs : Int) else value.natAbs := by
      rw [if_pos rfl]
      omega
    exact Number.within_digits small (by omega) same above below
  · next positive =>
    obtain ⟨c, others, listed, digit⟩ := exists_digits value.natAbs
    have read := number_digits false value.natAbs ends
    rw [listed, List.cons_append] at read ⊢
    have other : c ≠ '-' := by rintro rfl; cases digit
    rw [integer, skipBlanks_cons (isBlank_of_isDigit digit)]
    split
    · next same => exact absurd (List.cons.inj same).1 other
    · next same =>
      cases same
      rw [if_pos digit, read, ok_bind, ← listed]
      have same : value = if false then -(value.natAbs : Int) else value.natAbs := by
        rw [if_neg Bool.false_ne_true]
        omega
      have noSign : false = true → value.natAbs ≠ 0 := nofun
      exact Number.within_digits small noSign same above below
    · next same => cases same

/-- Digits are not escaped. -/
theorem flatMap_escaped_digits (number : Nat) :
    (digits number).flatMap escaped = digits number := by
  have each : ∀ c ∈ digits number, escaped c = [c] := by
    intro c member
    have digit := isDigit_of_mem_digits member
    have visible : 32 ≤ c.toNat := by
      simp only [Char.isDigit, Bool.and_eq_true, decide_eq_true_eq] at digit
      exact Nat.le_trans (by decide) (UInt32.le_iff_toNat_le.1 digit.1)
    have others : c ≠ '"' ∧ c ≠ '\\' ∧ c ≠ '\n' ∧ c ≠ '\r' ∧ c ≠ '\t' := by
      refine ⟨?_, ?_, ?_, ?_, ?_⟩ <;> rintro rfl <;> cases digit
    have numbers : c.toNat ≠ 8 ∧ c.toNat ≠ 12 ∧ ¬ c.toNat < 32 := by omega
    simp only [escaped, others, numbers, if_false]
  rw [List.flatMap_congr each, List.flatMap_singleton']

/-- A number is read back from a member that it names. -/
theorem memberNumber_quoted {least most : Int} {n : Nat} (above : least ≤ n) (below : n ≤ most)
    (small : n < Number.wordLimit) (rest : List Char) :
    memberNumber least most (quoted (toString n) ++ rest) = .ok ((n : Int), rest) := by
  obtain ⟨c, others, listed, digit⟩ := exists_digits n
  have ends : EndsNumber ('"' :: rest) := by simp [EndsNumber]
  have read := number_digits false n ends
  have within : Number.within least most ⟨false, digits n, none, none⟩ ('"' :: rest) =
      .ok ((n : Int), '"' :: rest) :=
    Number.within_digits small (by simp) (by simp) above below
  have text : quoted (toString n) ++ rest = '"' :: (digits n ++ '"' :: rest) := by
    rw [quoted, toList_toString, flatMap_escaped_digits]
    simp
  have other : c ≠ '-' := by rintro rfl; cases digit
  rw [text]
  rw [listed, List.cons_append] at read ⊢
  unfold memberNumber
  split
  · next same => exact absurd (List.cons.inj (List.cons.inj same).2).1 other
  · next same =>
    cases same
    simp only [if_pos digit, read, ok_bind, ← listed, within]
    rfl
  · next same => exact absurd rfl (same _ _)

/-! ## What stands behind a value -/

/-- The text ends, or a comma or a closing bracket follows. -/
def EndsValue (rest : List Char) : Prop := ∀ c ∈ rest.head?, c = ',' ∨ c = ']' ∨ c = '}'

/-- What ends a value ends a number. -/
theorem EndsValue.endsNumber {rest : List Char} (ends : EndsValue rest) : EndsNumber rest := by
  intro c first
  rcases ends c first with rfl | rfl | rfl <;> decide

theorem endsValue_comma {rest : List Char} : EndsValue (',' :: rest) := by simp [EndsValue]

theorem endsValue_brace {rest : List Char} : EndsValue ('}' :: rest) := by simp [EndsValue]

/-- A reader takes the text of a value for something, if it may enter that many containers. -/
def Takes {α : Type} (read : Reader α) (value : Value) (a : α) (depth : Nat) : Prop :=
  ∀ allowance rest, depth ≤ allowance → EndsValue rest →
    read allowance (value.chars ++ rest) = .ok (a, rest)

/-- What is read with some allowance is read with more. -/
theorem Takes.mono {α : Type} {read : Reader α} {value : Value} {a : α} {depth more : Nat}
    (takes : Takes read value a depth) (le : depth ≤ more) : Takes read value a more :=
  fun allowance rest enough => takes allowance rest (Nat.le_trans le enough)

/-- What the text of a value begins with: no blank, and nothing that ends a container. Only the word
for no value begins with its first letter. -/
theorem Value.exists_chars (value : Value) : ∃ c rest, value.chars = c :: rest ∧
    isBlank c = false ∧ c ≠ ']' ∧ c ≠ '}' ∧ (c = 'n' → value = .null) := by
  have other {c : Char} {rest : List Char} (plain : isBlank c = false ∧ c ≠ ']' ∧ c ≠ '}' ∧ c ≠ 'n')
      (starts : value.chars = c :: rest) : ∃ c rest, value.chars = c :: rest ∧
        isBlank c = false ∧ c ≠ ']' ∧ c ≠ '}' ∧ (c = 'n' → value = .null) :=
    ⟨c, rest, starts, plain.1, plain.2.1, plain.2.2.1, fun same => absurd same plain.2.2.2⟩
  cases value with
  | null => exact ⟨_, _, rfl, by decide, by decide, by decide, fun _ => rfl⟩
  | bool value => cases value <;> exact other (by decide) rfl
  | number n =>
      have starts := toList_toString_int n
      split at starts
      · exact other (by decide) starts
      · obtain ⟨c, rest, listed, digit⟩ := exists_digits n.natAbs
        refine other (c := c) ⟨isBlank_of_isDigit digit, ?_, ?_, ?_⟩ (starts.trans listed) <;>
          rintro rfl <;> cases digit
  | string text => exact other (by decide) rfl
  | array items => exact other (by decide) rfl
  | object members => exact other (by decide) rfl

/-- Every value is written with some character. -/
theorem Value.length_chars_pos (value : Value) : 0 < value.chars.length := by
  obtain ⟨c, rest, starts, -⟩ := value.exists_chars
  simp [starts]

/-! ## Scalars -/

/-- A string is read back. -/
theorem takes_string {depth : Nat} (text : String) : Takes string (.string text) text depth := by
  intro allowance rest _ _
  obtain ⟨tail, starts, reads⟩ := exists_quoted text
  rw [Value.chars, starts, List.cons_append, string, skipBlanks_cons (by decide)]
  exact reads rest

theorem takes_boolean {depth : Nat} (value : Bool) : Takes boolean (.bool value) value depth := by
  intro allowance rest _ _
  cases value <;> rfl

theorem takes_integer {depth : Nat} {least most value : Int} (above : least ≤ value)
    (below : value ≤ most) (small : value.natAbs < Number.wordLimit) :
    Takes (integer least most) (.number value) value depth :=
  fun _ _ _ ends => integer_chars above below small ends.endsNumber

section Values

variable {α β : Type} {read : Reader α} {value : Value} {a : α} {depth : Nat}

/-- A reader with another answer takes the same values. -/
theorem Takes.mapped {change : α → β} {b : β} (takes : Takes read value a depth)
    (same : change a = b) : Takes (mapped change read) value b depth := by
  intro allowance rest enough ends
  rw [Json.mapped, takes allowance rest enough ends, ← same]
  rfl

theorem takes_nullable_none : Takes (nullable read) .null none depth := by
  intro allowance rest _ _
  rfl

/-- A value that is present is read back as such. -/
theorem Takes.nullable (takes : Takes read value a depth) (present : value ≠ .null) :
    Takes (nullable read) value (some a) depth := by
  intro allowance rest enough ends
  have reads := takes allowance rest enough ends
  obtain ⟨c, tail, starts, black, -, -, word⟩ := value.exists_chars
  rw [starts, List.cons_append] at reads ⊢
  rw [Json.nullable, skipBlanks_cons black]
  split
  · next same => exact absurd (word (List.cons.inj same).1) present
  · rw [reads]
    rfl

/-! ## Containers -/

/-- A list ends with its bracket. -/
theorem nextItem_over (close : Char) {first : Bool} {rest : List Char}
    (black : isBlank close = false) : nextItem close first (close :: rest) = .ok (.over rest) := by
  simp [nextItem, skipBlanks_cons black]

theorem nextItem_first {close c : Char} {rest : List Char} (black : isBlank c = false)
    (opens : c ≠ close) : nextItem close true (c :: rest) = .ok (.item (c :: rest)) := by
  simp [nextItem, skipBlanks_cons black, opens]

/-- Behind a comma, the next element begins. -/
theorem nextItem_comma {close c : Char} {rest : List Char} (black : isBlank c = false)
    (opens : c ≠ close) (bracket : close ≠ ',') :
    nextItem close false (',' :: c :: rest) = .ok (.item (c :: rest)) := by
  have comma : isBlank ',' = false := by decide
  simp [nextItem, skipBlanks_cons black, skipBlanks_cons comma, opens, bracket.symm]

theorem Value.itemChars_cons (first : Value) (rest : List Value) :
    itemChars (first :: rest) = first.chars ++ rest.flatMap fun item => ',' :: item.chars := by
  induction rest generalizing first with
  | nil => simp [itemChars]
  | cons second rest ih =>
      rw [itemChars, ih, List.flatMap_cons, List.cons_append]
      exact List.cons_ne_nil _ _

/-- What stands behind an item of a container. -/
theorem endsValue_flatMap {σ : Type} (text : σ → List Char) (others : List σ) {close : Char}
    (bracket : close = ']' ∨ close = '}') (rest : List Char) :
    EndsValue (others.flatMap (fun item => ',' :: text item) ++ close :: rest) := by
  cases others with
  | nil => rcases bracket with rfl | rfl <;> simp [EndsValue]
  | cons => exact endsValue_comma

/-- A text is at least as long as a list that it separates. -/
theorem length_le_flatMap {σ : Type} (text : σ → List Char) (items : List σ) :
    items.length ≤ (items.flatMap fun item => ',' :: text item).length := by
  induction items with
  | nil => exact Nat.le_refl _
  | cons first rest ih => simp only [List.flatMap_cons, List.length_cons, List.length_append]; omega

section Items

variable {scan : Scan α} {values : List Value} {results : List α}
  (reads : List.Forall₂ (fun value a => ∀ rest, EndsValue rest →
    scan (value.chars ++ rest) = .ok (a, rest)) values results)
include reads

/-- The items behind the first one, each after a comma. -/
theorem items_flatMap {steps : Nat} (enough : values.length < steps) (rest : List Char) :
    items scan steps false (values.flatMap (fun item => ',' :: item.chars) ++ ']' :: rest) =
      .ok (results, rest) := by
  induction reads generalizing steps with
  | nil =>
      obtain ⟨steps, rfl⟩ := Nat.exists_eq_succ_of_ne_zero (Nat.ne_zero_of_lt enough)
      simp [items, nextItem_over ']' (by decide)]
  | @cons value a values results here later ih =>
      obtain ⟨steps, rfl⟩ := Nat.exists_eq_succ_of_ne_zero (Nat.ne_zero_of_lt enough)
      have more := ih (Nat.lt_of_succ_lt_succ enough)
      have first := here _ (endsValue_flatMap Value.chars values (.inl rfl) rest)
      obtain ⟨c, tail, starts, black, opens, -, -⟩ := value.exists_chars
      rw [starts, List.cons_append] at first
      simp only [List.flatMap_cons, starts, List.cons_append, List.append_assoc]
      rw [items, nextItem_comma black opens (by decide)]
      simp only [ok_bind, first, more, pure_eq_ok]

/-- The elements of an array are read back one by one. -/
theorem items_chars {steps : Nat} (enough : values.length < steps) (rest : List Char) :
    items scan steps true (Value.itemChars values ++ ']' :: rest) = .ok (results, rest) := by
  obtain ⟨steps, rfl⟩ := Nat.exists_eq_succ_of_ne_zero (Nat.ne_zero_of_lt enough)
  cases reads with
  | nil => simp [Value.itemChars, items, nextItem_over ']' (by decide)]
  | @cons value a values results here later =>
      have more := items_flatMap later (Nat.lt_of_succ_lt_succ enough) rest
      have first := here _ (endsValue_flatMap Value.chars values (.inl rfl) rest)
      obtain ⟨c, tail, starts, black, opens, -, -⟩ := value.exists_chars
      rw [starts, List.cons_append] at first
      rw [Value.itemChars_cons, starts, List.append_assoc, List.cons_append, items,
        nextItem_first black opens]
      simp only [ok_bind, first, more, pure_eq_ok]

end Items

theorem length_le_itemChars (values : List Value) :
    values.length ≤ (Value.itemChars values).length := by
  cases values with
  | nil => exact Nat.le_refl _
  | cons first rest =>
      have enough := first.length_chars_pos
      have others := length_le_flatMap Value.chars rest
      rw [Value.itemChars_cons, List.length_append, List.length_cons]
      omega

/-- An array is read back, if its elements are. -/
theorem takes_list {values : List Value} {results : List α}
    (reads : List.Forall₂ (fun value a => Takes read value a depth) values results) :
    Takes (list read) (.array values) results (depth + 1) := by
  intro allowance rest enough _
  obtain ⟨inner, rfl⟩ := Nat.exists_eq_succ_of_ne_zero (Nat.ne_zero_of_lt enough)
  have each : List.Forall₂ (fun value a => ∀ rest, EndsValue rest →
      read inner (value.chars ++ rest) = .ok (a, rest)) values results :=
    reads.imp fun value a takes rest => takes inner rest (Nat.le_of_succ_le_succ enough)
  have long := length_le_itemChars values
  rw [Value.chars, List.cons_append, List.cons_append, List.append_assoc, List.singleton_append,
    list, skipBlanks_cons (by decide)]
  exact items_chars each (by rw [List.length_append, List.length_cons]; omega) rest

/-! ## Members -/

/-- A member of an object as it is written. -/
def memberText (entry : String × Value) : List Char := quoted entry.1 ++ ':' :: entry.2.chars

theorem Value.memberChars_cons (first : String × Value) (rest : List (String × Value)) :
    memberChars (first :: rest) =
      memberText first ++ rest.flatMap fun entry => ',' :: memberText entry := by
  induction rest generalizing first with
  | nil => simp [memberChars, memberText]
  | cons second rest ih =>
      obtain ⟨name, value⟩ := first
      rw [memberChars, ih, List.flatMap_cons]
      · simp only [memberText, List.append_assoc, List.cons_append]
      · exact List.cons_ne_nil _ _

/-- The members of an object lead from one state to another, each of them by itself. -/
inductive Consumes {σ : Type} (member : σ → Scan σ) : σ → List (String × Value) → σ → Prop where
  | nil {state : σ} : Consumes member state [] state
  | cons {state middle final : σ} {entry : String × Value} {others : List (String × Value)}
      (here : ∀ rest, EndsValue rest →
        member state (memberText entry ++ rest) = .ok (middle, rest))
      (later : Consumes member middle others final) :
      Consumes member state (entry :: others) final

namespace Consumes

variable {σ : Type} {member : σ → Scan σ} {state final : σ} {entries : List (String × Value)}

/-- The members behind the first one, each after a comma. -/
theorem members_flatMap (consumes : Consumes member state entries final) {steps : Nat}
    (enough : entries.length < steps) (rest : List Char) :
    members member steps false state
      (entries.flatMap (fun entry => ',' :: memberText entry) ++ '}' :: rest) =
        .ok (final, rest) := by
  induction consumes generalizing steps with
  | nil =>
      obtain ⟨steps, rfl⟩ := Nat.exists_eq_succ_of_ne_zero (Nat.ne_zero_of_lt enough)
      simp [members, nextItem_over '}' (by decide)]
  | @cons state middle final entry others here later ih =>
      obtain ⟨steps, rfl⟩ := Nat.exists_eq_succ_of_ne_zero (Nat.ne_zero_of_lt enough)
      have more := ih (Nat.lt_of_succ_lt_succ enough)
      have first := here _ (endsValue_flatMap memberText others (.inr rfl) rest)
      obtain ⟨tail, starts, -⟩ := exists_quoted entry.1
      simp only [memberText, starts, List.cons_append, List.append_assoc] at first
      simp only [List.flatMap_cons, memberText, starts, List.cons_append, List.append_assoc]
      rw [members, nextItem_comma (by decide) (by decide) (by decide)]
      simp only [ok_bind, first]
      exact more

/-- The members of an object are read back one by one. -/
theorem members_chars (consumes : Consumes member state entries final) {steps : Nat}
    (enough : entries.length < steps) (rest : List Char) :
    members member steps true state (Value.memberChars entries ++ '}' :: rest) =
      .ok (final, rest) := by
  obtain ⟨steps, rfl⟩ := Nat.exists_eq_succ_of_ne_zero (Nat.ne_zero_of_lt enough)
  cases consumes with
  | nil => simp [Value.memberChars, members, nextItem_over '}' (by decide)]
  | @cons _ middle _ entry others here later =>
      have more := later.members_flatMap (Nat.lt_of_succ_lt_succ enough) rest
      have first := here _ (endsValue_flatMap memberText others (.inr rfl) rest)
      obtain ⟨tail, starts, -⟩ := exists_quoted entry.1
      rw [memberText, starts, List.append_assoc, List.cons_append] at first
      rw [Value.memberChars_cons, memberText, starts, List.append_assoc, List.append_assoc,
        List.cons_append, members, nextItem_first (by decide) (by decide)]
      simp only [ok_bind, first]
      exact more

end Consumes

theorem length_le_memberChars (entries : List (String × Value)) :
    entries.length ≤ (Value.memberChars entries).length := by
  cases entries with
  | nil => exact Nat.le_refl _
  | cons first rest =>
      have others := length_le_flatMap memberText rest
      rw [Value.memberChars_cons, List.length_append, memberText, List.length_append,
        List.length_cons, List.length_cons]
      omega

theorem colon_cons (rest : List Char) : colon (':' :: rest) = .ok rest := by
  rw [colon, skipBlanks_cons (by decide)]
  rfl

/-- An object of members of one kind is read back if each name and each value is. -/
theorem takes_entries {κ : Type} {name : Scan κ} {members : List (String × Value)}
    {results : List (κ × α)}
    (reads : List.Forall₂ (fun member result =>
      (∀ rest, name (quoted member.1 ++ rest) = .ok (result.1, rest)) ∧
        Takes read member.2 result.2 depth) members results) :
    Takes (entries name read) (.object members) results (depth + 1) := by
  intro allowance rest enough _
  obtain ⟨inner, rfl⟩ := Nat.exists_eq_succ_of_ne_zero (Nat.ne_zero_of_lt enough)
  let member (found : List (κ × α)) : Scan (List (κ × α)) := fun text => do
    let key ← name text
    let value ← read inner (← colon key.2)
    return ((key.1, value.1) :: found, value.2)
  have consumes (found : List (κ × α)) :
      Consumes member found members (results.reverse ++ found) := by
    induction reads generalizing found with
    | nil => exact .nil
    | @cons entry result entries results here _ ih =>
        rw [List.reverse_cons, List.append_assoc, List.singleton_append]
        refine .cons (fun rest ends => ?_) (ih (result :: found))
        have value := here.2 inner rest (Nat.le_of_succ_le_succ enough) ends
        simp only [member, memberText, List.append_assoc, List.cons_append, here.1, ok_bind,
          colon_cons, value, pure_eq_ok]
  have long := length_le_memberChars members
  rw [Value.chars, List.cons_append, List.cons_append, List.append_assoc, List.singleton_append,
    entries, skipBlanks_cons (by decide)]
  have enough : members.length < (Value.memberChars members ++ '}' :: rest).length + 1 := by
    rw [List.length_append, List.length_cons]
    omega
  have reads := (consumes []).members_chars enough rest
  refine bind_eq_ok_iff.2 ⟨_, reads, ?_⟩
  simp only [List.append_nil, List.reverse_reverse, pure_eq_ok]

end Values

end GotoFree.Json
