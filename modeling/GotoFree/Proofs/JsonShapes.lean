import GotoFree.Json.Shape
import GotoFree.Proofs.JsonText

/-!
# Reading back written records and variants

A record is read back from an object that has its members in their order, if the reader of each
takes what is written for it (`Json.takes_record`). A variant is read back from its name, or from
the object whose only member bears the name (`Json.takes_plain`, `Json.takes_tagged`).
-/

namespace GotoFree.Json

/-! ## Records -/

namespace Fields

/-- The names of the members of a record. -/
def names {types : List Type} : Fields types → List String
  | .done => []
  | .member name _ _ rest => name :: rest.names

/-- The members that are written for the values of a record, each with a value that its reader
takes. -/
inductive Writes (depth : Nat) : {types : List Type} → Fields types → List (String × Value) →
    Record types → Prop where
  | done : Writes depth .done [] ()
  | member {α : Type} {types : List Type} {name : String} {absent : Option α} {read : Reader α}
      {rest : Fields types} {value : Value} {a : α} {members : List (String × Value)}
      {values : Record types} (takes : Takes read value a depth)
      (others : Writes depth rest members values) :
      Writes depth (.member name absent read rest) ((name, value) :: members) (a, values)

/-- The draft with all values of a record. -/
def full : {types : List Type} → Fields types → Record types → Draft types
  | _, .done, _ => ()
  | _, .member _ _ _ rest, values => (some values.1, rest.full values.2)

/-- A full draft is completed to its values. -/
theorem complete_full {types : List Type} (fields : Fields types) (values : Record types) :
    fields.complete (fields.full values) = some values := by
  induction fields with
  | done => rfl
  | member name absent read rest ih => simp [complete, full, ih]

variable {types : List Type} {fields : Fields types} {members : List (String × Value)}
  {values : Record types} {depth inner : Nat}

/-- The members that are written have the names of the fields. -/
theorem Writes.names_eq (writes : Writes depth fields members values) :
    members.map Prod.fst = fields.names := by
  induction writes with
  | done => rfl
  | member _ _ ih => rw [List.map_cons, ih, names]

/-- A member of another name is left to the rest of the record. -/
theorem scan_of_ne {α : Type} {own name : String} {absent : Option α} {read : Reader α}
    {draft next : Draft types} {found : Option α} {text after rest : List Char}
    (named : memberName text = .ok (name, rest)) (other : own ≠ name)
    (scanned : fields.scan inner draft text = .ok (next, after)) :
    (Fields.member own absent read fields).scan inner (found, draft) text =
      .ok ((found, next), after) := by
  simp only [scan, named, ok_bind, scan?, if_neg other] at scanned ⊢
  cases known : fields.scan? inner name draft with
  | none =>
      simp only [known, bind_eq_ok_iff, pure_eq_ok, Except.ok.injEq, Prod.mk.injEq] at scanned
      obtain ⟨behind, isColon, left, passes, rfl, rfl⟩ := scanned
      simp only [Option.map_none, isColon, passes, ok_bind, pure_eq_ok]
  | some scan =>
      simp only [known] at scanned
      simp only [Option.map_some, scanned, ok_bind, pure_eq_ok]

/-- The member of a name is read into the draft. -/
theorem scan_own {α : Type} {name : String} {absent : Option α} {read : Reader α} {value : Value}
    {a : α} (takes : Takes read value a depth) (enough : depth ≤ inner) {draft : Draft types}
    {rest : List Char} (ends : EndsValue rest) :
    (Fields.member name absent read fields).scan inner (none, draft)
      (memberText (name, value) ++ rest) = .ok ((some a, draft), rest) := by
  have reads := takes inner rest enough ends
  simp [scan, scan?, memberText, memberName_quoted, colon_cons, reads]

/-- Members of other names lead to the same values of the rest of the record. -/
theorem consumes_of_ne {α : Type} {own : String} {absent : Option α} {read : Reader α}
    {draft final : Draft types} {found : Option α}
    (consumes : Consumes (fields.scan inner) draft members final)
    (apart : ∀ entry ∈ members, own ≠ entry.1) :
    Consumes ((Fields.member own absent read fields).scan inner) (found, draft) members
      (found, final) := by
  induction consumes with
  | nil => exact .nil
  | @cons draft middle final entry others here _ ih =>
      refine .cons (fun rest ends => ?_) (ih fun entry member =>
        apart entry (List.mem_cons_of_mem _ member))
      have named := memberName_quoted entry.1 (':' :: entry.2.chars ++ rest)
      rw [← List.append_assoc] at named
      exact scan_of_ne named (apart entry List.mem_cons_self) (here rest ends)

/-- The members that are written for a record fill its draft. -/
theorem Writes.consumes (writes : Writes depth fields members values)
    (distinct : fields.names.Nodup) (enough : depth ≤ inner) :
    Consumes (fields.scan inner) (.blank types) members (fields.full values) := by
  induction writes with
  | done => exact .nil
  | @member α types name absent read rest value a members values takes others ih =>
      obtain ⟨fresh, distinct⟩ := List.nodup_cons.1 distinct
      refine .cons (fun _ ends => scan_own takes enough ends) (consumes_of_ne (ih distinct) ?_)
      rintro entry member rfl
      exact fresh (others.names_eq ▸ List.mem_map_of_mem member)

end Fields

/-- A record is read back from the object of its members. -/
theorem takes_record {α : Type} {types : List Type} {fields : Fields types}
    {members : List (String × Value)} {values : Record types} {depth : Nat}
    (writes : fields.Writes depth members values) (distinct : fields.names.Nodup)
    (build : Record types → α) :
    Takes (record fields build) (.object members) (build values) (depth + 1) := by
  intro allowance rest enough _
  obtain ⟨inner, rfl⟩ := Nat.exists_eq_succ_of_ne_zero (Nat.ne_zero_of_lt enough)
  have long := length_le_memberChars members
  have steps : members.length < (Value.memberChars members ++ '}' :: rest).length + 1 := by
    rw [List.length_append, List.length_cons]
    omega
  have reads := (writes.consumes distinct (Nat.le_of_succ_le_succ enough)).members_chars steps rest
  unfold record
  rw [Value.chars, List.cons_append, List.cons_append, List.append_assoc, List.singleton_append,
    skipBlanks_cons (by decide)]
  refine bind_eq_ok_iff.2 ⟨_, reads, ?_⟩
  simp only [Fields.complete_full, pure_eq_ok]

/-! ## Variants -/

section Variants

variable {α : Type} {form? : String → Option (Form α)} {name : String} {a : α} {depth : Nat}

/-- A form without content is read back from its name. -/
theorem takes_plain (known : form? name = some (.plain a)) :
    Takes (variant form?) (.string name) a depth := by
  intro allowance rest _ _
  obtain ⟨tail, starts, reads⟩ := exists_quoted name
  rw [Value.chars, starts, List.cons_append, variant, skipBlanks_cons (by decide)]
  simp only [reads, ok_bind, known, pure_eq_ok]

/-- A form with content is read back from the object whose only member bears its name. -/
theorem variant_object {read : Reader α} {value : Value} {inner : Nat}
    (known : form? name = some (.tagged read)) {rest : List Char}
    (reads : read inner (value.chars ++ '}' :: rest) = .ok (a, '}' :: rest)) :
    variant form? (inner + 1) ((Value.object [(name, value)]).chars ++ rest) = .ok (a, rest) := by
  have close : variant.objectEnd ('}' :: rest) = .ok rest := by
    rw [variant.objectEnd, skipBlanks_cons (by decide)]
    rfl
  obtain ⟨tail, starts, -⟩ := exists_quoted name
  have named := memberName_quoted name (':' :: (value.chars ++ '}' :: rest))
  rw [starts, List.cons_append] at named
  have text : (Value.object [(name, value)]).chars ++ rest =
      '{' :: '"' :: (tail ++ ':' :: (value.chars ++ '}' :: rest)) := by
    simp [Value.chars, Value.memberChars, starts]
  rw [text, variant, skipBlanks_cons (by decide)]
  refine bind_eq_ok_iff.2 ⟨(name, ':' :: (value.chars ++ '}' :: rest)), ?_, ?_⟩
  · rw [skipBlanks_cons (by decide), named]
  · simp only [ok_bind, known, colon_cons, reads, close, pure_eq_ok]

/-- A form with a tag is read under its name. -/
theorem takes_tagged {read : Reader α} {value : Value}
    (known : form? name = some (.tagged read)) (takes : Takes read value a depth) :
    Takes (variant form?) (.object [(name, value)]) a (depth + 1) := by
  intro allowance rest enough _
  obtain ⟨inner, rfl⟩ := Nat.exists_eq_succ_of_ne_zero (Nat.ne_zero_of_lt enough)
  exact variant_object known (takes inner _ (Nat.le_of_succ_le_succ enough) endsValue_brace)

/-- A name of a list is read back as what it names. -/
theorem takes_choice {values : List (String × α)} (known : values.lookup name = some a) :
    Takes (choice values) (.string name) a depth :=
  takes_plain (by rw [known]; rfl)

end Variants

end GotoFree.Json
