import GotoFree.Proofs.MarkedPlaces
import Mathlib.Data.List.DropRight

/-!
# Positions

The bytes before a position of a source tell its line and its column. `byteAt` finds the position
again from them, whether it is at a line feed or behind one, within a character or at the end; and
whatever line and column it is given, it does not leave the source (`byteAt_inverse`). Lines are
split between characters and positions count bytes. The two agree since no other character has the
byte of a line feed in it (`lineFeed_notMem`).
-/

namespace GotoFree

/-! ## Bytes -/

/-- The byte of a line feed. -/
def lineFeed : UInt8 := 10

/-- The bytes of a text. -/
def encoded (text : List Char) : List UInt8 := text.flatMap String.utf8EncodeChar

variable {c : Char} {rest source text : List Char} {front bytes : List UInt8}

theorem encoded_cons : encoded (c :: rest) = String.utf8EncodeChar c ++ encoded rest :=
  List.flatMap_cons

theorem encoded_newline : encoded ('\n' :: rest) = lineFeed :: encoded rest := encoded_cons

/-- The bytes of a text are those of its characters. -/
theorem encoded_toList (source : String) : encoded source.toList = source.toUTF8.data.toList := by
  rw [String.toUTF8_eq_toByteArray, ← String.utf8Encode_toList, List.utf8Encode,
    List.toList_data_toByteArray, encoded]

theorem length_encoded : (encoded text).length = Json.byteCount text := by
  induction text with
  | nil => rfl
  | cons c rest ih =>
      rw [encoded_cons, List.length_append, String.length_utf8EncodeChar, ih, Json.byteCount_cons]

/-- The bytes of a text are counted along its characters. -/
theorem byteCount_toList (source : String) :
    Json.byteCount source.toList = source.utf8ByteSize := by
  rw [← length_encoded, encoded_toList]
  rfl

/-- No byte of a wide character is a line feed. -/
theorem lineFeed_ne_ofNat {n : Nat} (least : 128 ≤ n) (greatest : n < 256) :
    lineFeed ≠ UInt8.ofNat n := by
  intro same
  have value : 10 = n % 256 := congrArg UInt8.toNat same
  omega

/-- No byte of another character is the byte of a line feed. -/
theorem lineFeed_notMem (other : c ≠ '\n') : lineFeed ∉ String.utf8EncodeChar c := by
  fun_cases String.utf8EncodeChar c with
  | case1 v short =>
      intro member
      have value : 10 = c.val.toNat % 256 :=
        congrArg UInt8.toNat (List.mem_singleton.1 member)
      have same : c.toNat = '\n'.toNat := by
        change c.val.toNat = 10
        omega
      exact other (Char.toNat_inj.1 same)
  | case2 | case3 | case4 =>
      simp only [List.mem_cons, List.not_mem_nil, or_false, not_or]
      and_intros <;> exact lineFeed_ne_ofNat (by omega) (by omega)

/-! ## Lines -/

/-- The byte where a line starts, given the number of line feeds before it. -/
def lineStart (source : List Char) (feeds : Nat) : Nat :=
  Json.byteCount ((linesOf source).take feeds).flatten

/-- A place is as many bytes on as its line starts and its column says, up to the end. -/
theorem byteAt_eq (source : List Char) (line column : Nat) : byteAt source line column =
    min (lineStart source (line - 1) + (column - 1)) (Json.byteCount source) := rfl

theorem lineStart_zero : lineStart source 0 = 0 := rfl

/-- Behind a line feed, the next line starts. -/
theorem lineStart_newline {feeds : Nat} :
    lineStart ('\n' :: rest) (feeds + 1) = lineStart rest feeds + 1 := by
  rw [lineStart, linesOf, if_pos rfl, List.take_succ_cons, List.flatten_cons,
    List.singleton_append, Json.byteCount_cons, Nat.add_comm]
  rfl

/-- Other characters stand in the line that they are in. -/
theorem lineStart_other {feeds : Nat} (other : c ≠ '\n') :
    lineStart (c :: rest) (feeds + 1) = c.utf8Size + lineStart rest (feeds + 1) := by
  rw [lineStart, lineStart, linesOf, if_neg other]
  cases linesOf rest with
  | nil => simp [Json.byteCount]
  | cons line lines =>
      simp only [List.take_succ_cons, List.flatten_cons, List.cons_append, Json.byteCount_cons]

/-! ## Columns -/

/-- The bytes behind the last line feed. -/
def behindFeed (bytes : List UInt8) : List UInt8 := bytes.rtakeWhile (· ≠ lineFeed)

/-- A text without line feeds is its own last line. -/
theorem behindFeed_of_notMem (oneLine : lineFeed ∉ bytes) : behindFeed bytes = bytes := by
  refine List.rtakeWhile_eq_self_iff.2 fun byte member => decide_eq_true ?_
  exact fun same => oneLine (same ▸ member)

/-- The last line is behind the last feed. -/
theorem behindFeed_append (feed : lineFeed ∈ bytes) :
    behindFeed (front ++ bytes) = behindFeed bytes := by
  have stops : (bytes.reverse.takeWhile (· ≠ lineFeed)).length ≠ bytes.reverse.length := by
    intro long
    have whole := (List.takeWhile_prefix (l := bytes.reverse) (· ≠ lineFeed)).eq_of_length long
    have member : lineFeed ∈ bytes.reverse.takeWhile (· ≠ lineFeed) := by
      rwa [whole, List.mem_reverse]
    simpa using List.mem_takeWhile_imp member
  rw [behindFeed, List.rtakeWhile, List.reverse_append, List.takeWhile_append, if_neg stops]
  rfl

theorem behindFeed_cons : behindFeed (lineFeed :: bytes) = behindFeed bytes := by
  by_cases feed : lineFeed ∈ bytes
  · exact @behindFeed_append [lineFeed] bytes feed
  · have goesOn : ∀ byte ∈ bytes.reverse, decide (byte ≠ lineFeed) = true := by
      intro byte member
      exact decide_eq_true fun same => feed (same ▸ List.mem_reverse.1 member)
    rw [behindFeed_of_notMem feed, behindFeed, List.rtakeWhile, List.reverse_cons,
      List.takeWhile_append_of_pos goesOn]
    simp

/-! ## Positions -/

/-- A position, given the bytes before it, is the start of its line and the bytes before it on the
line. -/
def Located (source : List Char) (bytes : List UInt8) : Prop :=
  lineStart source (bytes.count lineFeed) + (behindFeed bytes).length = bytes.length

/-- On the first line, all that is before a position is on its line. -/
theorem located_of_notMem (oneLine : lineFeed ∉ bytes) : Located source bytes := by
  rw [Located, List.count_eq_zero_of_not_mem oneLine, lineStart_zero, behindFeed_of_notMem oneLine,
    Nat.zero_add]

/-- A line feed leads to the start of the next line. -/
theorem Located.newline (located : Located rest bytes) :
    Located ('\n' :: rest) (lineFeed :: bytes) := by
  rw [Located] at located
  rw [Located, List.count_cons_self, lineStart_newline, behindFeed_cons, List.length_cons]
  omega

/-- A character in front of a text moves the start of every line but the first. -/
theorem Located.other (located : Located rest bytes) (other : c ≠ '\n') (feed : lineFeed ∈ bytes) :
    Located (c :: rest) (String.utf8EncodeChar c ++ bytes) := by
  obtain ⟨feeds, count⟩ := Nat.exists_eq_add_one.2 (List.count_pos_iff.2 feed)
  rw [Located, count] at located
  rw [Located, List.count_append, List.count_eq_zero_of_not_mem (lineFeed_notMem other),
    Nat.zero_add, count, lineStart_other other, behindFeed_append feed, List.length_append,
    String.length_utf8EncodeChar]
  omega

/-- The bytes in front of a place locate it. -/
theorem located_of_prefix (starts : bytes <+: encoded source) : Located source bytes := by
  induction source generalizing bytes with
  | nil =>
      obtain rfl := List.prefix_nil.1 starts
      rfl
  | cons c rest ih =>
      by_cases feed : lineFeed ∈ bytes
      · by_cases ends : c = '\n'
        · subst ends
          rw [encoded_newline, List.prefix_cons_iff] at starts
          obtain rfl | ⟨later, rfl, starts⟩ := starts
          · cases feed
          · exact (ih starts).newline
        · have within := lineFeed_notMem ends
          rw [encoded_cons] at starts
          -- The line feed before the position is behind the character.
          obtain inside | ⟨later, rfl⟩ := List.prefix_or_prefix_of_prefix starts
            (List.prefix_append (String.utf8EncodeChar c) (encoded rest))
          · exact absurd (inside.subset feed) within
          · have located := ih ((List.prefix_append_right_inj _).1 starts)
            exact located.other ends ((List.mem_append.1 feed).resolve_left within)
      · exact located_of_notMem feed

/-- The bytes of a source before a position. -/
def bytesBefore (source : String) (position : Nat) : List UInt8 :=
  source.toUTF8.data.toList.take position

/-- The line of a position, one more than there are line feeds before it. -/
def lineAt (source : String) (position : Nat) : Nat :=
  1 + (bytesBefore source position).count lineFeed

/-- The column of a position, one more than there are bytes before it behind the last line feed. -/
def columnAt (source : String) (position : Nat) : Nat :=
  1 + (behindFeed (bytesBefore source position)).length

/-- Every position of a source is found from its line and its column; it need not be one between
characters. For any line and column at all, what is found does not lie behind the end. -/
theorem byteAt_inverse (source : String) :
    (∀ position ≤ source.utf8ByteSize,
      byteAt source.toList (lineAt source position) (columnAt source position) = position) ∧
    ∀ line column, byteAt source.toList line column ≤ source.utf8ByteSize := by
  constructor
  · intro position inside
    have starts : bytesBefore source position <+: encoded source.toList := by
      rw [encoded_toList]
      exact List.take_prefix ..
    have long : (bytesBefore source position).length = position := List.length_take_of_le inside
    have located := located_of_prefix starts
    rw [Located, long] at located
    rw [byteAt_eq, byteCount_toList, lineAt, columnAt, Nat.add_sub_cancel_left,
      Nat.add_sub_cancel_left, located, Nat.min_eq_left inside]
  · intro line column
    rw [byteAt_eq, byteCount_toList]
    exact Nat.min_le_right ..

/-- The second byte of a letter on the third line, behind an empty line. -/
theorem byteAt_inverse_withinCharacter :
    let source := "a\n\né"
    4 ≤ source.utf8ByteSize ∧ lineAt source 4 = 3 ∧ columnAt source 4 = 2 ∧
      byteAt source.toList 3 2 = 4 := by
  intro source
  have inside : 4 ≤ source.utf8ByteSize := by decide
  have line : lineAt source 4 = 3 := by decide
  have column : columnAt source 4 = 2 := by decide
  have found := (byteAt_inverse source).1 4 inside
  rw [line, column] at found
  exact ⟨inside, line, column, found⟩

end GotoFree
