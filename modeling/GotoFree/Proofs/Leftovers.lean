import GotoFree.Program.Decode
import GotoFree.Proofs.Check
import Mathlib.Data.List.Infix

/-!
# What readers leave over

A reader takes a value off the front of a text: what it leaves is an end of the text, character by
character as it stood (`Json.Advances`). So a place that a reader came by is a place of the text it
was given, and can be told by the text that was still ahead of it.
-/

namespace GotoFree.Json

/-- What is left behind a value is an end of the text. -/
def Advances {α : Type} (read : Scan α) : Prop :=
  ∀ ⦃text value rest⦄, read text = .ok (value, rest) → rest <:+ text

/-- What is left behind a part of a text that is passed over is an end of the text. -/
def Passes (pass : List Char → Except Stop (List Char)) : Prop :=
  ∀ ⦃text rest⦄, pass text = .ok rest → rest <:+ text

/-- An end of what follows a character is an end of the text that the character begins. -/
theorem suffix_cons_of {rest behind : List Char} (left : rest <:+ behind) (c : Char) :
    rest <:+ c :: behind :=
  left.trans (List.suffix_cons c behind)

/-- What is left behind blanks is an end of the text. -/
theorem skipBlanks_suffix (text : List Char) : skipBlanks text <:+ text :=
  List.dropWhile_suffix isBlank

/-- An end of what stands behind the blanks of a text and one character is an end of the text. -/
theorem suffix_of_skipBlanks {text rest behind : List Char} {c : Char}
    (starts : skipBlanks text = c :: behind) (left : rest <:+ behind) : rest <:+ text :=
  (suffix_cons_of left c).trans (starts ▸ skipBlanks_suffix text)

/-- Nothing more is left if the value is changed. -/
theorem Advances.changed {α β : Type} {read : Scan α} (advances : Advances read) (change : α → β)
    {text rest : List Char} {value : β}
    (reads : (do let (a, left) ← read text; return (change a, left)) = Except.ok (value, rest)) :
    rest <:+ text := by
  obtain ⟨⟨a, left⟩, read, made⟩ := bind_eq_ok_iff.1 reads
  cases made
  exact advances read

/-- Nothing more is left if a value is given besides. -/
theorem Passes.besides {α : Type} {pass : List Char → Except Stop (List Char)}
    (passes : Passes pass) (given : α) {text rest : List Char} {value : α}
    (reads : (do return (given, ← pass text)) = Except.ok (value, rest)) : rest <:+ text := by
  obtain ⟨left, passed, made⟩ := bind_eq_ok_iff.1 reads
  cases made
  exact passes passed

/-- Nothing more is left if what is left is passed over further. -/
theorem Passes.followed {pass next : List Char → Except Stop (List Char)} (passes : Passes pass)
    {text rest : List Char} (later : ∀ left, next left = .ok rest → rest <:+ left)
    (reads : (do next (← pass text)) = .ok rest) : rest <:+ text := by
  obtain ⟨left, passed, read⟩ := bind_eq_ok_iff.1 reads
  exact (later left read).trans (passes passed)

/-! ## Words and strings -/

/-- Reading a word leaves an end of the text. -/
theorem passes_word (expected : List Char) : Passes (word expected) := by
  intro text rest read
  induction expected generalizing text with
  | nil =>
      cases read
      exact List.suffix_refl _
  | cons first more ih =>
      cases text with
      | nil => cases read
      | cons c others =>
          rw [word] at read
          split at read
          · exact suffix_cons_of (ih read) c
          · cases read

/-- Reading the rest of a string leaves an end of the text. -/
theorem advances_stringTail (done : List Char) : Advances (stringTail done) := by
  intro text value rest read
  fun_induction stringTail done text <;> simp_all [List.suffix_cons_iff]

theorem passes_skipString : Passes skipString := by
  intro text rest read
  fun_induction skipString text <;> simp_all [List.suffix_cons_iff]

/-! ## Numbers -/

/-- Reading digits leaves an end of the text. -/
theorem advances_someDigits : Advances someDigits := by
  intro text digits rest read
  cases text with
  | nil => cases read
  | cons c others =>
      rw [someDigits] at read
      split at read
      · cases read
        exact List.dropWhile_suffix Char.isDigit
      · cases read

/-- Reading a fraction leaves an end of the text. -/
theorem advances_fraction : Advances fraction := by
  intro text places rest read
  unfold fraction at read
  split at read
  · exact suffix_cons_of (advances_someDigits.changed some read) '.'
  · cases read
    exact List.suffix_refl _

theorem advances_signedDigits : Advances signedDigits := by
  intro text value rest read
  unfold signedDigits at read
  split at read
  · exact suffix_cons_of (advances_someDigits.changed (fun ds => (decimal ds : Int)) read) '+'
  · exact suffix_cons_of (advances_someDigits.changed (fun ds => -(decimal ds : Int)) read) '-'
  · exact advances_someDigits.changed (fun ds => (decimal ds : Int)) read

/-- Reading an exponent leaves an end of the text. -/
theorem advances_exponent : Advances exponent := by
  intro text power rest read
  unfold exponent at read
  split at read
  · exact suffix_cons_of (advances_signedDigits.changed some read) 'e'
  · exact suffix_cons_of (advances_signedDigits.changed some read) 'E'
  · cases read
    exact List.suffix_refl _

/-- Reading a number leaves an end of the text. -/
theorem advances_number (negative : Bool) : Advances (number negative) := by
  intro text value rest read
  simp only [number, bind_eq_ok_iff] at read
  obtain ⟨⟨whole, middle⟩, first, read⟩ := read
  split at read
  · cases read
  · simp only [pure_eq_ok, bind_eq_ok_iff, Except.ok.injEq, Prod.mk.injEq] at read
    obtain ⟨⟨places, later⟩, second, ⟨power, last⟩, third, -, rfl⟩ := read
    exact (advances_exponent third).trans
      ((advances_fraction second).trans (advances_someDigits first))

/-- Taking a number for an integer leaves the same text. -/
theorem Number.eq_of_within {least most value : Int} {number : Number} {rest left : List Char}
    (taken : number.within least most rest = .ok (value, left)) : left = rest := by
  unfold within at taken
  split_ifs at taken
  cases taken
  rfl

/-! ## Scalars -/

/-- A value of another kind is never read. -/
theorem refuse_ne_ok {α : Type} {text : List Char} {value : α} : refuse text ≠ .ok value := by
  unfold refuse
  split <;> try split
  all_goals simp [bind_eq_ok_iff]

theorem advances_string (allowance : Nat) : Advances (string allowance) := by
  intro text value rest read
  unfold string at read
  split at read
  · next starts => exact suffix_of_skipBlanks starts (advances_stringTail [] read)
  · cases refuse_ne_ok read

theorem advances_boolean (allowance : Nat) : Advances (boolean allowance) := by
  intro text value rest read
  unfold boolean at read
  split at read
  · next starts => exact suffix_of_skipBlanks starts ((passes_word _).besides true read)
  · next starts => exact suffix_of_skipBlanks starts ((passes_word _).besides false read)
  · cases refuse_ne_ok read

theorem advances_null (allowance : Nat) : Advances (null allowance) := by
  intro text value rest read
  unfold null at read
  split at read
  · next starts => exact suffix_of_skipBlanks starts ((passes_word _).besides () read)
  · cases refuse_ne_ok read

theorem advances_integer (least most : Int) (allowance : Nat) :
    Advances (integer least most allowance) := by
  intro text value rest read
  unfold integer at read
  split at read
  · next starts =>
    obtain ⟨⟨number, left⟩, read, taken⟩ := bind_eq_ok_iff.1 read
    exact suffix_of_skipBlanks starts (Number.eq_of_within taken ▸ advances_number true read)
  · next starts =>
    split at read
    · obtain ⟨⟨number, left⟩, read, taken⟩ := bind_eq_ok_iff.1 read
      have left := starts ▸ skipBlanks_suffix text
      exact (Number.eq_of_within taken ▸ advances_number false read).trans left
    · cases refuse_ne_ok read
  · cases refuse_ne_ok read

section Values

variable {α β : Type}

/-- A reader of values that may be missing advances if the reader of values does. -/
theorem advances_nullable {read : Reader α} (advances : ∀ allowance, Advances (read allowance))
    (allowance : Nat) : Advances (nullable read allowance) := by
  intro text value rest reads
  unfold nullable at reads
  split at reads
  · next starts => exact suffix_of_skipBlanks starts ((passes_word _).besides none reads)
  · exact ((advances allowance).changed some reads).trans (skipBlanks_suffix text)

theorem advances_mapped {read : Reader α} (change : α → β)
    (advances : ∀ allowance, Advances (read allowance)) (allowance : Nat) :
    Advances (mapped change read allowance) :=
  fun _ _ _ reads => (advances allowance).changed change reads

end Values

/-! ## Containers -/

/-- What is left behind a comma or at an element is an end of the text. -/
theorem suffix_of_nextItem {close : Char} {first : Bool} {text rest : List Char} {step : Step}
    (found : nextItem close first text = .ok step) (left : step = .over rest ∨ step = .item rest) :
    rest <:+ text := by
  unfold nextItem at found
  split at found
  · cases found
  · next c behind starts =>
    split_ifs at found
    · cases found
      obtain ⟨⟨⟩⟩ | ⟨⟨⟩⟩ := left
      exact suffix_of_skipBlanks starts (List.suffix_refl _)
    · cases found
      obtain ⟨⟨⟩⟩ | ⟨⟨⟩⟩ := left
      exact starts ▸ skipBlanks_suffix text
    · split at found
      · cases found
      · next d others continues =>
        split_ifs at found
        cases found
        obtain ⟨⟨⟩⟩ | ⟨⟨⟩⟩ := left
        exact suffix_of_skipBlanks starts (continues ▸ skipBlanks_suffix behind)

theorem passes_colon : Passes colon := by
  intro text rest read
  unfold colon at read
  split at read
  · cases read
  · next starts =>
    cases read
    exact suffix_of_skipBlanks starts (List.suffix_refl _)
  · cases read

section Containers

variable {α κ σ : Type}

/-- The elements of a list leave an end of the text. -/
theorem advances_items {read : Scan α} (advances : Advances read) (steps : Nat) (first : Bool) :
    Advances (items read steps first) := by
  intro text values rest reads
  induction steps generalizing first text values rest with
  | zero => cases reads
  | succ steps ih =>
      rw [items] at reads
      obtain ⟨step, found, reads⟩ := bind_eq_ok_iff.1 reads
      split at reads
      · cases reads
        exact suffix_of_nextItem found (.inl rfl)
      · obtain ⟨⟨value, middle⟩, here, reads⟩ := bind_eq_ok_iff.1 reads
        obtain ⟨⟨others, last⟩, later, made⟩ := bind_eq_ok_iff.1 reads
        cases made
        exact (ih false later).trans ((advances here).trans (suffix_of_nextItem found (.inr rfl)))

/-- A list advances if its elements do. -/
theorem advances_list {read : Reader α} (advances : ∀ allowance, Advances (read allowance))
    (allowance : Nat) : Advances (list read allowance) := by
  intro text values rest reads
  unfold list at reads
  split at reads
  · next starts =>
    cases allowance with
    | zero => cases reads
    | succ inner => exact suffix_of_skipBlanks starts (advances_items (advances inner) _ true reads)
  · cases refuse_ne_ok reads

/-- The members of an object leave an end of the text. -/
theorem advances_members {member : σ → Scan σ} (advances : ∀ state, Advances (member state))
    (steps : Nat) (first : Bool) (state : σ) : Advances (members member steps first state) := by
  intro text final rest reads
  induction steps generalizing first state text with
  | zero => cases reads
  | succ steps ih =>
      rw [members] at reads
      obtain ⟨step, found, reads⟩ := bind_eq_ok_iff.1 reads
      split at reads
      · cases reads
        exact suffix_of_nextItem found (.inl rfl)
      · obtain ⟨⟨middle, left⟩, here, later⟩ := bind_eq_ok_iff.1 reads
        exact (ih false middle later).trans
          ((advances state here).trans (suffix_of_nextItem found (.inr rfl)))
      · cases reads

/-- The name of a member leaves an end of the text. -/
theorem advances_memberName : Advances memberName := by
  intro text name rest read
  unfold memberName at read
  split at read
  · exact suffix_cons_of (advances_stringTail [] read) '"'
  · cases refuse_ne_ok read

/-- The quote behind a number leaves an end of the text. -/
theorem suffix_of_closing {number value : Int} {middle rest : List Char}
    (closed : memberNumber.closing (number, middle) = .ok (value, rest)) : rest <:+ middle := by
  unfold memberNumber.closing at closed
  split at closed
  · next same =>
    cases closed
    cases same
    exact List.suffix_cons '"' rest
  · cases closed

theorem suffix_of_quotedNumber {least most value : Int} {negative : Bool} {text rest : List Char}
    (read : (do
      let (value, rest) ← number negative text
      memberNumber.closing (← value.within least most rest)) = .ok (value, rest)) :
    rest <:+ text := by
  obtain ⟨⟨number, behind⟩, read, taken⟩ := bind_eq_ok_iff.1 read
  obtain ⟨⟨value, left⟩, within, closed⟩ := bind_eq_ok_iff.1 taken
  have starts : behind <:+ text := advances_number negative read
  exact (suffix_of_closing closed).trans (Number.eq_of_within within ▸ starts)

/-- A number in quotes leaves an end of the text. -/
theorem advances_memberNumber (least most : Int) : Advances (memberNumber least most) := by
  intro text value rest read
  unfold memberNumber at read
  split at read
  · exact suffix_cons_of (suffix_cons_of (suffix_of_quotedNumber read) '-') '"'
  · next c others _ =>
    split at read
    · exact suffix_cons_of (suffix_of_quotedNumber read) '"'
    · cases read
  · cases read

/-- A map advances if its names and values do. -/
theorem advances_entries {name : Scan κ} {read : Reader α} (names : Advances name)
    (values : ∀ allowance, Advances (read allowance)) (allowance : Nat) :
    Advances (entries name read allowance) := by
  intro text found rest reads
  unfold entries at reads
  split at reads
  · next starts =>
    cases allowance with
    | zero => cases reads
    | succ inner =>
        have member (found : List (κ × α)) : Advances fun text => do
            let (key, rest) ← name text
            let (value, rest) ← read inner (← colon rest)
            return ((key, value) :: found, rest) := by
          intro text more rest reads
          obtain ⟨⟨key, behindName⟩, named, reads⟩ := bind_eq_ok_iff.1 reads
          obtain ⟨behindColon, parted, reads⟩ := bind_eq_ok_iff.1 reads
          obtain ⟨⟨value, left⟩, valued, made⟩ := bind_eq_ok_iff.1 reads
          cases made
          exact (values inner valued).trans ((passes_colon parted).trans (names named))
        obtain ⟨⟨all, left⟩, reads, made⟩ := bind_eq_ok_iff.1 reads
        cases made
        exact suffix_of_skipBlanks starts (advances_members member _ true [] reads)
  · cases refuse_ne_ok reads

end Containers

/-! ## Values nobody asked for -/

/-- A skipped number leaves an end of the text. -/
theorem passes_skipNumber : Passes skipNumber := by
  intro text rest read
  unfold skipNumber at read
  split at read
  · next reads =>
    cases read
    exact advances_number false reads
  · cases read

theorem passes_itemValue (close : Char) : Passes (skipSteps.itemValue close) := by
  intro text rest read
  unfold skipSteps.itemValue at read
  split at read
  · split at read
    · cases read
    · next starts =>
      obtain ⟨left, passed, parted⟩ := bind_eq_ok_iff.1 read
      exact suffix_of_skipBlanks starts ((passes_colon parted).trans (passes_skipString passed))
    · cases read
  · cases read
    exact List.suffix_refl _

/-- Skipping a value step by step leaves an end of the text. -/
theorem passes_skipSteps (steps : Nat) (expecting : Expecting) (owed : List Char) :
    Passes (skipSteps steps expecting owed) := by
  intro text rest read
  -- a step passes over one token behind blanks, and the others pass over what follows
  fun_induction skipSteps steps expecting owed text with
  | case1 | case3 | case12 | case15 | case18 | case19 => cases read
  | case2 =>
      cases read
      exact List.suffix_refl _
  | case4 _ _ _ _ starts _ ih | case5 _ _ _ _ starts _ ih | case6 _ _ _ _ starts _ ih =>
      exact suffix_of_skipBlanks starts ((passes_word _).followed ih read)
  | case7 _ _ _ _ starts _ ih =>
      exact suffix_of_skipBlanks starts (passes_skipString.followed ih read)
  | case8 _ _ _ _ starts _ ih | case9 _ _ _ _ starts _ ih | case13 _ _ _ _ _ _ starts ih
  | case16 _ _ _ _ _ _ starts ih =>
      exact suffix_of_skipBlanks starts (ih read)
  | case10 _ _ _ _ starts _ ih =>
      exact suffix_of_skipBlanks starts (passes_skipNumber.followed ih read)
  | case11 _ _ text _ _ _ _ _ _ _ _ _ starts _ _ ih =>
      exact (passes_skipNumber.followed ih read).trans (starts ▸ skipBlanks_suffix text)
  | case14 _ text _ _ starts close _ _ _ ih =>
      exact ((passes_itemValue close).followed ih read).trans (starts ▸ skipBlanks_suffix text)
  | case17 _ _ _ close _ _ starts _ ih =>
      exact suffix_of_skipBlanks starts ((passes_itemValue close).followed ih read)

/-- A skipped value leaves an end of the text. -/
theorem passes_skip : Passes skip := fun text _ read =>
  passes_skipSteps (2 * text.length + 2) .value [] read

/-! ## Records and variants -/

/-- Every reader of a member leaves an end of its text. -/
inductive Fields.Advances : {types : List Type} → Fields types → Prop where
  | done : Advances .done
  | member {α : Type} {types : List Type} {name : String} {absent : Option α} {read : Reader α}
      {rest : Fields types} (here : ∀ allowance, Json.Advances (read allowance))
      (others : Advances rest) : Advances (.member name absent read rest)

namespace Fields

variable {types : List Type} {fields : Fields types}

/-- The field of a name advances if all fields do. -/
theorem Advances.of_scan? (advances : fields.Advances) {allowance : Nat} {name : String}
    {draft : Draft types} {scan : Scan (Draft types)}
    (known : fields.scan? allowance name draft = some scan) : Json.Advances scan := by
  induction advances with
  | done => cases known
  | member here _ ih =>
      rw [scan?] at known
      split at known
      · cases known
        intro text next left reads
        split at reads
        · cases reads
        · obtain ⟨behind, parted, reads⟩ := bind_eq_ok_iff.1 reads
          exact ((here allowance).changed (fun value => (some value, draft.2)) reads).trans
            (passes_colon parted)
      · obtain ⟨others, found, rfl⟩ := Option.map_eq_some_iff.1 known
        exact fun _ _ _ reads => (ih found).changed (fun next => (draft.1, next)) reads

/-- The members of an object advance if the fields do. -/
theorem Advances.scan (advances : fields.Advances) (allowance : Nat) (draft : Draft types) :
    Json.Advances (fields.scan allowance draft) := by
  intro text next rest reads
  obtain ⟨⟨name, behind⟩, named, reads⟩ := bind_eq_ok_iff.1 reads
  have left : rest <:+ behind := by
    dsimp only at reads
    split at reads
    · next known => exact advances.of_scan? known reads
    · obtain ⟨value, parted, reads⟩ := bind_eq_ok_iff.1 reads
      obtain ⟨left, passed, made⟩ := bind_eq_ok_iff.1 reads
      cases made
      exact (passes_skip passed).trans (passes_colon parted)
  exact left.trans (advances_memberName named)

/-- The values of a record in an array advance if the fields do. -/
theorem Advances.scanItems (advances : fields.Advances) (allowance : Nat) (first : Bool) :
    Json.Advances (fields.scanItems allowance first) := by
  induction advances generalizing first with
  | done =>
      intro text draft rest reads
      cases reads
      exact List.suffix_refl _
  | member here _ ih =>
      intro text draft rest reads
      rw [Fields.scanItems] at reads
      obtain ⟨step, found, reads⟩ := bind_eq_ok_iff.1 reads
      split at reads
      · cases reads
        exact List.suffix_refl _
      · obtain ⟨⟨value, middle⟩, valued, reads⟩ := bind_eq_ok_iff.1 reads
        have left := (ih false).changed (fun next => (some value, next)) reads
        exact left.trans ((here allowance valued).trans (suffix_of_nextItem found (.inr rfl)))

end Fields

theorem passes_arrayEnd : Passes arrayEnd := by
  intro text rest read
  unfold arrayEnd at read
  split at read
  · cases read
  · next starts =>
    cases read
    exact suffix_of_skipBlanks starts (List.suffix_refl _)
  · cases read

/-- A record advances if its fields do. -/
theorem advances_record {α : Type} {types : List Type} {fields : Fields types}
    (advances : fields.Advances) (build : Record types → α) (allowance : Nat) :
    Advances (record fields build allowance) := by
  intro text value rest reads
  unfold record at reads
  split at reads
  · cases reads
  · cases reads
  · next starts =>
    obtain ⟨⟨draft, left⟩, scanned, reads⟩ := bind_eq_ok_iff.1 reads
    dsimp only at reads
    split at reads
    · have ends := passes_arrayEnd.besides _ reads
      exact suffix_of_skipBlanks starts (ends.trans (advances.scanItems _ true scanned))
    · cases reads
  · next starts =>
    obtain ⟨⟨draft, left⟩, scanned, reads⟩ := bind_eq_ok_iff.1 reads
    dsimp only at reads
    split at reads
    · cases reads
      exact suffix_of_skipBlanks starts
        (advances_members (advances.scan _) _ true _ scanned)
    · cases reads
  · cases refuse_ne_ok reads

/-- The reader of a form's content leaves an end of its text. -/
def Form.Advances {α : Type} : Form α → Prop
  | .plain _ => True
  | .tagged read => ∀ allowance, Json.Advances (read allowance)

theorem passes_objectEnd : Passes variant.objectEnd := by
  intro text rest read
  unfold variant.objectEnd at read
  split at read
  · cases read
  · next starts =>
    cases read
    exact suffix_of_skipBlanks starts (List.suffix_refl _)
  · cases read

/-- A variant advances if its forms do. -/
theorem advances_variant {α : Type} {form? : String → Option (Form α)}
    (advances : ∀ {name form}, form? name = some form → form.Advances) (allowance : Nat) :
    Advances (variant form? allowance) := by
  -- the content of a form stands behind its name and a colon, and the bracket of the object ends it
  have content {β : Type} {read : Scan β} (advances : Advances read) (change : β → α)
      {text behind rest : List Char} {value : α} (starts : behind <:+ text)
      (reads : (do
        let (content, left) ← read (← colon behind)
        return (change content, ← variant.objectEnd left)) = .ok (value, rest)) :
      rest <:+ text := by
    obtain ⟨start, parted, reads⟩ := bind_eq_ok_iff.1 reads
    obtain ⟨⟨_, left⟩, here, reads⟩ := bind_eq_ok_iff.1 reads
    have ends := passes_objectEnd.besides _ reads
    exact ends.trans ((advances here).trans ((passes_colon parted).trans starts))
  intro text value rest reads
  unfold variant at reads
  split at reads
  · cases reads
  · next starts =>
    obtain ⟨⟨name, left⟩, named, reads⟩ := bind_eq_ok_iff.1 reads
    dsimp only at reads
    split at reads <;> cases reads
    exact suffix_of_skipBlanks starts (advances_stringTail [] named)
  · next others starts =>
    cases allowance with
    | zero => cases reads
    | succ inner =>
        obtain ⟨⟨name, behind⟩, named, reads⟩ := bind_eq_ok_iff.1 reads
        have left := (advances_memberName named).trans (skipBlanks_suffix others)
        dsimp only at reads
        split at reads
        · cases reads
        · next plain _ =>
          exact suffix_of_skipBlanks starts
            (content (advances_null inner) (fun _ => plain) left reads)
        · next known =>
          exact suffix_of_skipBlanks starts (content (advances known inner) id left reads)
  · cases reads

/-- A choice among words advances. -/
theorem advances_choice {α : Type} (values : List (String × α)) (allowance : Nat) :
    Advances (choice values allowance) := by
  refine advances_variant (fun known => ?_) allowance
  obtain ⟨value, -, rfl⟩ := Option.map_eq_some_iff.1 known
  trivial

end GotoFree.Json

namespace GotoFree

open Json

/-! ## Programs -/

theorem advances_readNames (allowance : Nat) : Advances (readNames allowance) :=
  advances_mapped _ (advances_list advances_string) allowance

theorem advances_readWord (allowance : Nat) : Advances (readWord allowance) :=
  advances_mapped _ (advances_integer 0 _) allowance

theorem Ty.advances_read (allowance : Nat) : Advances (Ty.read allowance) := by
  have forms {element : Scan Ty} (advances : Advances element) {name : String} {form : Form Ty}
      (known : Ty.form? element name = some form) : form.Advances := by
    unfold Ty.form? at known
    split at known <;> cases known
    · trivial
    · trivial
    · exact advances_mapped _ advances_string
    · exact advances_mapped _ fun _ => advances
    · trivial
  induction allowance with
  | zero =>
      have stops : Advances fun text => (throw ⟨.malformed, text⟩ : Except Stop (Ty × List Char)) :=
        fun _ _ _ => nofun
      exact advances_variant (forms stops) 0
  | succ inner ih => exact advances_variant (forms ih) (inner + 1)

theorem Declared.advances_read (allowance : Nat) : Advances (Declared.read allowance) :=
  advances_record (.member advances_string <| .member Ty.advances_read <| .done) _ allowance

theorem ClassDecl.advances_read (allowance : Nat) : Advances (ClassDecl.read allowance) :=
  advances_record (.member advances_string <| .member (advances_nullable advances_string) <|
      .member (advances_list Declared.advances_read) <| .done) _ allowance

theorem FieldRef.advances_read (allowance : Nat) : Advances (FieldRef.read allowance) :=
  advances_record (.member advances_string <| .member advances_string <| .done) _ allowance

theorem Source.advances_read (allowance : Nat) : Advances (Source.read allowance) := by
  refine advances_variant (fun known => ?_) allowance
  split at known <;> cases known
  · trivial
  · exact advances_mapped _ advances_readWord

theorem Operand.advances_read (allowance : Nat) : Advances (Operand.read allowance) := by
  refine advances_variant (fun known => ?_) allowance
  split at known <;> cases known
  · exact advances_mapped _ advances_string
  · exact advances_mapped _ (advances_integer _ _)
  · exact advances_mapped _ advances_boolean
  · trivial

theorem Callee.advances_read (allowance : Nat) : Advances (Callee.read allowance) :=
  advances_record (.member advances_string <| .member advances_string <|
      .member advances_readWord <| .done) _ allowance

theorem Call.advances_read (allowance : Nat) : Advances (Call.read allowance) :=
  advances_record (.member (advances_choice _) <| .member Callee.advances_read <|
      .member (advances_nullable advances_string) <|
      .member (advances_list Operand.advances_read) <| .member advances_readNames <|
      .done) _ allowance

theorem Expr.advances_read (allowance : Nat) : Advances (Expr.read allowance) := by
  refine advances_variant (fun known => ?_) allowance
  split at known <;> cases known
  · exact advances_mapped _ Operand.advances_read
  · exact advances_record (.member (advances_choice _) <| .member Operand.advances_read <|
        .member Operand.advances_read <| .done) _
  · exact advances_record (.member (advances_choice _) <| .member Operand.advances_read <| .done) _
  · exact advances_record (.member advances_string <| .member FieldRef.advances_read <|
        .member advances_readNames <| .done) _
  · exact advances_record (.member advances_string <| .member Operand.advances_read <| .done) _
  · exact advances_mapped _ advances_string
  · exact advances_mapped _ advances_string
  · exact advances_record (.member Ty.advances_read <| .member Operand.advances_read <| .done) _
  · exact advances_mapped _ Call.advances_read
  · trivial
  · exact advances_record (.member Operand.advances_read <| .member Ty.advances_read <| .done) _
  · exact advances_record (.member advances_string <| .member (advances_list Ty.advances_read) <|
        .done) _

theorem Place.advances_read (allowance : Nat) : Advances (Place.read allowance) := by
  refine advances_variant (fun known => ?_) allowance
  split at known <;> cases known
  · exact advances_mapped _ advances_string
  · exact advances_record (.member advances_string <| .member FieldRef.advances_read <|
        .member advances_readNames <| .done) _
  · exact advances_record (.member advances_string <| .member Operand.advances_read <| .done) _

theorem AccessPath.advances_read (allowance : Nat) : Advances (AccessPath.read allowance) :=
  advances_record (.member advances_string <| .member (advances_list FieldRef.advances_read) <|
      .done) _ allowance

theorem Instr.advances_read (allowance : Nat) : Advances (Instr.read allowance) := by
  refine advances_variant (fun known => ?_) allowance
  split at known <;> cases known
  · exact advances_record (.member advances_string <| .member Source.advances_read <| .done) _
  · exact advances_record (.member Place.advances_read <| .member Expr.advances_read <| .done) _
  · exact advances_record (.member Expr.advances_read <| .done) _
  · trivial
  · exact advances_record (.member (advances_nullable Operand.advances_read) <| .done) _
  · exact advances_mapped _ Call.advances_read
  · exact advances_record (.member advances_boolean <| .done) _
  · exact advances_record (.member Operand.advances_read <| .done) _
  · exact advances_record (.member AccessPath.advances_read <| .member AccessPath.advances_read <|
        .done) _

theorem BlockId.advances_read (allowance : Nat) : Advances (BlockId.read allowance) :=
  advances_mapped _ (advances_integer 0 _) allowance

theorem BlockId.advances_readName : Advances BlockId.readName :=
  fun _ _ _ reads => (advances_memberNumber 0 _).changed BlockId.ofInt reads

theorem Block.advances_read (allowance : Nat) : Advances (Block.read allowance) :=
  advances_record (.member BlockId.advances_read <| .member (advances_list Instr.advances_read) <|
      .member (advances_list BlockId.advances_read) <| .done) _ allowance

theorem advances_readBindings (allowance : Nat) : Advances (readBindings allowance) :=
  advances_mapped _ (advances_entries advances_memberName (advances_choice _)) allowance

theorem BindingPlan.advances_read (allowance : Nat) : Advances (BindingPlan.read allowance) := by
  have blocks := advances_entries BlockId.advances_readName advances_readBindings
  exact advances_record (.member advances_readBindings <| .member (advances_mapped _ blocks) <|
    .done) _ allowance

theorem Method.advances_read (allowance : Nat) : Advances (Method.read allowance) :=
  advances_record (.member advances_string <| .member advances_string <| .member advances_boolean <|
      .member (advances_list Ty.advances_read) <| .member Ty.advances_read <|
      .member (advances_list Declared.advances_read) <| .member BlockId.advances_read <|
      .member (advances_list Block.advances_read) <|
      .member (advances_nullable BindingPlan.advances_read) <| .done) _ allowance

theorem MethodId.advances_readName : Advances MethodId.readName :=
  fun _ _ _ reads => advances_memberName.changed MethodId.mk reads

end GotoFree
