import GotoFree.Proofs.Leftovers
import Mathlib.Data.Option.Basic

/-!
# Readers that read alike

Two readers of one shape may keep different things of what they read. The one reads like the other
if it reads something wherever the other does, leaves the same text and keeps what is related to
what the other keeps (`Json.ReadsLike`). Objects and records are read alike if their names and their
values are.
-/

namespace GotoFree.Json

/-- At every end of a text where the one reads something, the other reads something related and
leaves the same end of the text. -/
def ReadsLike {α β : Type} (whole : List Char) (Related : α → β → Prop) (read : Scan α)
    (other : Scan β) : Prop :=
  ∀ ⦃text value rest⦄, text <:+ whole → read text = .ok (value, rest) →
    rest <:+ whole ∧ ∃ found, other text = .ok (found, rest) ∧ Related value found

variable {whole : List Char} {α β : Type}

/-- A reader that advances reads like itself. -/
theorem Advances.readsLike {read : Scan α} (advances : Advances read) :
    ReadsLike whole Eq read read :=
  fun _ value _ within reads => ⟨(advances reads).trans within, value, reads, rfl⟩

/-- Readers that read alike still do so after a change of what they answer. -/
theorem ReadsLike.mapped {γ : Type} {Related : α → β → Prop} {Related' : γ → β → Prop}
    {read : Reader α} {other : Scan β} {allowance : Nat}
    (like : ReadsLike whole Related (read allowance) other) {change : α → γ}
    (changed : ∀ {a b}, Related a b → Related' (change a) b) :
    ReadsLike whole Related' (Json.mapped change read allowance) other := by
  intro text value rest within reads
  obtain ⟨⟨a, left⟩, reads, made⟩ := bind_eq_ok_iff.1 reads
  cases made
  obtain ⟨ends, b, reads, related⟩ := like within reads
  exact ⟨ends, b, reads, changed related⟩

/-! ## Objects -/

section Objects

variable {σ τ : Type} {Related : σ → τ → Prop} {member : σ → Scan σ} {member' : τ → Scan τ}

/-- Members are read alike from related states, if each of them is. -/
theorem readsLike_members
    (like : ∀ {state other}, Related state other →
      ReadsLike whole Related (member state) (member' other))
    (steps : Nat) (first : Bool) {state : σ} {other : τ} (related : Related state other) :
    ReadsLike whole Related (members member steps first state)
      (members member' steps first other) := by
  intro text final rest within reads
  induction steps generalizing first state other text with
  | zero => cases reads
  | succ steps ih =>
      rw [members] at reads ⊢
      obtain ⟨step, found, reads⟩ := bind_eq_ok_iff.1 reads
      simp only [found, ok_bind]
      split at reads
      · cases reads
        exact ⟨(suffix_of_nextItem found (.inl rfl)).trans within, other, rfl, related⟩
      · have starts := (suffix_of_nextItem found (.inr rfl)).trans within
        obtain ⟨⟨middle, left⟩, here, later⟩ := bind_eq_ok_iff.1 reads
        obtain ⟨ends, middle', here, alike⟩ := like related starts here
        simp only [here, ok_bind]
        exact ih false alike ends later
      · cases reads

/-- Two entries have related names and one value. -/
def AlikeEntries {κ κ' ν : Type} (Related : κ → κ' → Prop) (entry : κ × ν) (entry' : κ' × ν) :
    Prop :=
  Related entry.1 entry'.1 ∧ entry.2 = entry'.2

section Entries

variable {κ κ' ν : Type} {Named : κ → κ' → Prop} {name : Scan κ} {other : Scan κ'}
  {read : Reader ν}

/-- What stands before one more entry stays related. -/
theorem readsLike_entry (names : ReadsLike whole Named name other)
    (values : ∀ allowance, Advances (read allowance)) (allowance : Nat)
    {found : List (κ × ν)} {found' : List (κ' × ν)}
    (alike : List.Forall₂ (AlikeEntries Named) found found') :
    ReadsLike whole (List.Forall₂ (AlikeEntries Named))
      (fun text => do
        let (key, rest) ← name text
        let (value, rest) ← read allowance (← colon rest)
        return ((key, value) :: found, rest))
      (fun text => do
        let (key, rest) ← other text
        let (value, rest) ← read allowance (← colon rest)
        return ((key, value) :: found', rest)) := by
  intro text more rest within reads
  obtain ⟨⟨key, behindName⟩, named, reads⟩ := bind_eq_ok_iff.1 reads
  obtain ⟨behindColon, parted, reads⟩ := bind_eq_ok_iff.1 reads
  obtain ⟨⟨value, left⟩, valued, made⟩ := bind_eq_ok_iff.1 reads
  cases made
  obtain ⟨within, key', named, related⟩ := names within named
  refine ⟨(values allowance valued).trans ((passes_colon parted).trans within),
    (key', value) :: found', ?_, .cons ⟨related, rfl⟩ alike⟩
  simp only [named, parted, valued, ok_bind, pure_eq_ok]

/-- Entries are read alike if their names are and one reader reads their values. -/
theorem readsLike_entries (names : ReadsLike whole Named name other)
    (values : ∀ allowance, Advances (read allowance)) (allowance : Nat) :
    ReadsLike whole (List.Forall₂ (AlikeEntries Named)) (entries name read allowance)
      (entries other read allowance) := by
  intro text found rest within reads
  unfold entries at reads ⊢
  split at reads
  · next starts =>
    cases allowance with
    | zero => cases reads
    | succ inner =>
        have within := (suffix_of_skipBlanks starts (List.suffix_refl _)).trans within
        obtain ⟨⟨all, left⟩, reads, made⟩ := bind_eq_ok_iff.1 reads
        cases made
        obtain ⟨ends, all', reads', alike⟩ :=
          readsLike_members (readsLike_entry names values inner) _ true .nil within reads
        exact ⟨ends, all'.reverse, bind_eq_ok_iff.2 ⟨_, reads', rfl⟩, List.rel_reverse alike⟩
  · cases refuse_ne_ok reads

end Entries

end Objects

/-! ## Records -/

/-- The members of two records are read alike, and what is related in their drafts and in
themselves is related member by member. -/
inductive Fields.ReadsLike (whole : List Char) : {types types' : List Type} → Fields types →
    Fields types' → (Draft types → Draft types' → Prop) → (Record types → Record types' → Prop) →
    Prop where
  | done : ReadsLike whole .done .done (fun _ _ => True) (fun _ _ => True)
  | member {α β : Type} {types types' : List Type} {name : String} {absent : Option α}
      {absent' : Option β} {read : Reader α} {read' : Reader β} {rest : Fields types}
      {rest' : Fields types'} {Related : α → β → Prop} {Drafts : Draft types → Draft types' → Prop}
      {Records : Record types → Record types' → Prop}
      (here : ∀ allowance, Json.ReadsLike whole Related (read allowance) (read' allowance))
      (absents : Option.Rel Related absent absent')
      (others : ReadsLike whole rest rest' Drafts Records) :
      ReadsLike whole (.member name absent read rest) (.member name absent' read' rest')
        (fun draft draft' => Option.Rel Related draft.1 draft'.1 ∧ Drafts draft.2 draft'.2)
        (fun values values' => Related values.1 values'.1 ∧ Records values.2 values'.2)

namespace Fields.ReadsLike

variable {types types' : List Type} {fields : Fields types} {fields' : Fields types'}
  {Drafts : Draft types → Draft types' → Prop} {Records : Record types → Record types' → Prop}

/-- Blank drafts are related. -/
theorem blank (like : fields.ReadsLike whole fields' Drafts Records) :
    Drafts (.blank types) (.blank types') := by
  induction like with
  | done => trivial
  | member _ _ _ ih => exact ⟨.none, ih⟩

/-- Related drafts are completed to related records, or neither is. -/
theorem complete (like : fields.ReadsLike whole fields' Drafts Records) {draft : Draft types}
    {draft' : Draft types'} (alike : Drafts draft draft') :
    Option.Rel Records (fields.complete draft) (fields'.complete draft') := by
  induction like with
  | done => exact .some trivial
  | @member α β _ _ _ absent absent' _ _ rest rest' Related _ _ _ absents _ ih =>
      obtain ⟨first, others⟩ := draft
      obtain ⟨first', others'⟩ := draft'
      have value : Option.Rel Related (first <|> absent) (first' <|> absent') := by
        cases alike.1 with
        | some related => exact .some related
        | none => simpa using absents
      rw [Fields.complete, Fields.complete]
      generalize (first <|> absent) = one, (first' <|> absent') = other at value
      have records := ih alike.2
      dsimp only at records ⊢
      generalize rest.complete others = here, rest'.complete others' = there at records
      cases value with
      | none => exact .none
      | some related =>
          cases records with
          | none => exact .none
          | some records => exact .some ⟨related, records⟩

/-- The field of a name is read alike into related drafts. -/
theorem scan? (like : fields.ReadsLike whole fields' Drafts Records) (allowance : Nat)
    (name : String) {draft : Draft types} {draft' : Draft types'} (alike : Drafts draft draft') :
    Option.Rel (Json.ReadsLike whole Drafts) (fields.scan? allowance name draft)
      (fields'.scan? allowance name draft') := by
  induction like with
  | done => exact .none
  | @member _ _ _ _ _ _ _ _ _ rest rest' _ _ _ here _ _ ih =>
      obtain ⟨first, others⟩ := draft
      obtain ⟨first', others'⟩ := draft'
      rw [Fields.scan?, Fields.scan?]
      split
      · refine .some fun text next rest within reads => ?_
        have found : first'.isSome = first.isSome := by cases alike.1 <;> rfl
        split at reads
        · cases reads
        · next fresh =>
          obtain ⟨behind, parted, reads⟩ := bind_eq_ok_iff.1 reads
          obtain ⟨⟨value, left⟩, valued, made⟩ := bind_eq_ok_iff.1 reads
          cases made
          have within := (passes_colon parted).trans within
          obtain ⟨ends, value', valued, related⟩ := here allowance within valued
          refine ⟨ends, (some value', others'), ?_, .some related, alike.2⟩
          dsimp only at fresh ⊢
          simp only [found, fresh, parted, valued, ok_bind, pure_eq_ok]
          rfl
      · have scans := ih alike.2
        dsimp only at scans ⊢
        generalize rest.scan? allowance name others = here,
          rest'.scan? allowance name others' = there at scans
        cases scans with
        | none => exact .none
        | some scans =>
            refine .some fun text next rest within reads => ?_
            obtain ⟨⟨more, left⟩, scanned, made⟩ := bind_eq_ok_iff.1 reads
            cases made
            obtain ⟨ends, more', scanned, later⟩ := scans within scanned
            exact ⟨ends, (first', more'), bind_eq_ok_iff.2 ⟨_, scanned, rfl⟩, alike.1, later⟩

/-- Members of an object are read alike into related drafts. -/
theorem scan (like : fields.ReadsLike whole fields' Drafts Records) (allowance : Nat)
    {draft : Draft types} {draft' : Draft types'} (alike : Drafts draft draft') :
    Json.ReadsLike whole Drafts (fields.scan allowance draft) (fields'.scan allowance draft') := by
  intro text next rest within reads
  obtain ⟨⟨name, behind⟩, named, reads⟩ := bind_eq_ok_iff.1 reads
  have within := (advances_memberName named).trans within
  have scans := like.scan? allowance name alike
  unfold Fields.scan
  simp only [named, ok_bind] at reads ⊢
  generalize fields.scan? allowance name draft = one,
    fields'.scan? allowance name draft' = other at scans reads
  cases scans with
  | some scans => exact scans within reads
  | none =>
      obtain ⟨value, parted, reads⟩ := bind_eq_ok_iff.1 reads
      obtain ⟨left, passed, made⟩ := bind_eq_ok_iff.1 reads
      cases made
      refine ⟨(passes_skip passed).trans ((passes_colon parted).trans within), draft', ?_, alike⟩
      simp only [parted, passed, ok_bind, pure_eq_ok]

/-- The fields of a record are read alike to the end of the object. -/
theorem scanItems (like : fields.ReadsLike whole fields' Drafts Records) (allowance : Nat)
    (first : Bool) :
    Json.ReadsLike whole Drafts (fields.scanItems allowance first)
      (fields'.scanItems allowance first) := by
  induction like generalizing first with
  | done => 
      intro text draft rest within reads
      cases reads
      exact ⟨within, (), rfl, trivial⟩
  | member here _ others ih =>
      intro text draft rest within reads
      rw [Fields.scanItems] at reads ⊢
      obtain ⟨step, found, reads⟩ := bind_eq_ok_iff.1 reads
      split at reads
      · cases reads
        refine ⟨within, .blank _, ?_, .none, others.blank⟩
        simp only [found, ok_bind, pure_eq_ok]
      · obtain ⟨⟨value, middle⟩, valued, reads⟩ := bind_eq_ok_iff.1 reads
        obtain ⟨⟨next, left⟩, scanned, made⟩ := bind_eq_ok_iff.1 reads
        cases made
        have within := (suffix_of_nextItem found (.inr rfl)).trans within
        obtain ⟨within, value', valued, related⟩ := here allowance within valued
        obtain ⟨ends, next', scanned, alike⟩ := ih false within scanned
        refine ⟨ends, (some value', next'), ?_, .some related, alike⟩
        simp only [found, valued, scanned, ok_bind, pure_eq_ok]

end Fields.ReadsLike

/-- A record is read alike if its fields are. -/
theorem readsLike_record {types types' : List Type} {fields : Fields types}
    {fields' : Fields types'} {Drafts : Draft types → Draft types' → Prop}
    {Records : Record types → Record types' → Prop}
    (like : fields.ReadsLike whole fields' Drafts Records) {build : Record types → α}
    {build' : Record types' → β} {Related : α → β → Prop}
    (built : ∀ {values values'}, Records values values' → Related (build values) (build' values'))
    (allowance : Nat) :
    ReadsLike whole Related (record fields build allowance) (record fields' build' allowance) := by
  intro text value rest within reads
  unfold record at reads ⊢
  split at reads
  · cases reads
  · cases reads
  · next starts =>
    have within := (suffix_of_skipBlanks starts (List.suffix_refl _)).trans within
    obtain ⟨⟨draft, left⟩, scanned, reads⟩ := bind_eq_ok_iff.1 reads
    obtain ⟨within, draft', scanned', alike⟩ := like.scanItems _ true within scanned
    have completed := like.complete alike
    simp only [scanned', ok_bind] at reads ⊢
    generalize fields.complete draft = one, fields'.complete draft' = other at completed reads
    cases completed with
    | none => cases reads
    | some records =>
        obtain ⟨behind, ended, made⟩ := bind_eq_ok_iff.1 reads
        cases made
        exact ⟨(passes_arrayEnd ended).trans within, _, bind_eq_ok_iff.2 ⟨_, ended, rfl⟩,
          built records⟩
  · next starts =>
    have within := (suffix_of_skipBlanks starts (List.suffix_refl _)).trans within
    obtain ⟨⟨draft, left⟩, scanned, reads⟩ := bind_eq_ok_iff.1 reads
    obtain ⟨within, draft', scanned', alike⟩ :=
      readsLike_members (like.scan _) _ true like.blank within scanned
    have completed := like.complete alike
    simp only [scanned', ok_bind] at reads ⊢
    generalize fields.complete draft = one, fields'.complete draft' = other at completed reads
    cases completed with
    | none => cases reads
    | some records =>
        cases reads
        exact ⟨within, _, rfl, built records⟩
  · cases refuse_ne_ok reads

end GotoFree.Json
