import GotoFree.Proofs.Answers
import GotoFree.Proofs.ExprText
import Mathlib.Data.List.Perm.Subperm

/-!
# The methods that are lowered

A method gets a name that no other method has and that is a word, and joins the queue when it gets
it. Nothing that is handed out changes later (`Agenda.Leads`). So when the queue is empty, the
methods that have a name are those that were lowered, each of them once (`Lower.forall₂_program`).
-/

namespace GotoFree

/-! ## Names -/

namespace Registry

variable {registry : Registry} {base : String}

/-- The names that are tried for a method differ. -/
theorem nodup_candidates : (registry.candidates base).Nodup := by
  have ending {n : Nat} : base ++ "_" ++ toString (n + 2) = base ++ ("_" ++ toString (n + 2)) :=
    String.append_assoc
  refine List.nodup_cons.2 ⟨fun member => ?_, ?_⟩
  · obtain ⟨n, -, same⟩ := List.mem_map.1 member
    have length := congrArg String.length same
    rw [ending, String.length_append, String.length_append, show "_".length = 1 from rfl] at length
    omega
  · refine List.nodup_range.map fun one two same => ?_
    rw [String.append_right_inj] at same
    have numbers := toString_inj same
    omega

/-- A method gets a name that is not in use: there are more candidates than names in use. -/
theorem free_notMem : registry.free base ∉ registry.used := by
  cases found : (registry.candidates base).find? fun name => name ∉ registry.used with
  | some name =>
      rw [free, found, Option.getD_some]
      simpa using List.find?_some found
  | none =>
      have all : registry.candidates base ⊆ registry.used.toList := fun name member => by
        simpa [SortedSet.mem_toList] using List.find?_eq_none.1 found name member
      have fewer := (nodup_candidates.subperm all).length_le
      have size : registry.used.toList.length = registry.used.size := rfl
      simp only [candidates, List.length_cons, List.length_map, List.length_range] at fewer
      omega

/-- The chosen name is one of those that are tried. -/
theorem free_mem_candidates : registry.free base ∈ registry.candidates base := by
  unfold free
  cases found : (registry.candidates base).find? fun name => name ∉ registry.used with
  | some name => exact List.mem_of_find?_eq_some found
  | none => exact List.mem_cons_self

end Registry

/-- A name of which all characters are letters, numbers or underscores. -/
def IsWord (name : String) : Prop := ∀ c ∈ name.toList, Target.isWordChar c = true

/-- A word behind a word is a word. -/
theorem IsWord.append {front back : String} (first : IsWord front) (second : IsWord back) :
    IsWord (front ++ back) := by
  intro c member
  rw [String.toList_append, List.mem_append] at member
  exact member.elim (first c) (second c)

theorem isWord_underscore : IsWord "_" := by
  simp [IsWord, Target.isWordChar]

theorem isWord_toString {number : Nat} : IsWord (toString number) := by
  intro c member
  rw [toList_toString] at member
  exact Target.isWordChar_of_isDigit (isDigit_of_mem_digits member)

/-- What is left of a name after sanitizing is a word. -/
theorem isWord_sanitized {name : String} : IsWord (sanitized name) := by
  intro c member
  simp only [sanitized, String.toList_ofList, List.mem_map] at member
  obtain ⟨original, -, rfl⟩ := member
  split
  · next isLetter => simp [Target.isWordChar, isLetter]
  · rfl

/-- The name that is chosen for a method is a word. -/
theorem Registry.isWord_free {registry : Registry} {base : String} (isWord : IsWord base) :
    IsWord (registry.free base) := by
  have among : registry.free base ∈ registry.candidates base := free_mem_candidates
  rcases List.mem_cons.1 among with same | member
  · rwa [same]
  · obtain ⟨n, -, same⟩ := List.mem_map.1 member
    rw [← same]
    exact (isWord.append isWord_underscore).append isWord_toString

/-! ## The queue -/

namespace Agenda

variable {program : Program} {agenda middle later : Agenda} {id : MethodId} {name : String}

/-- The name of a method. -/
def nameOf? (agenda : Agenda) (id : MethodId) : Option String := agenda.registry.names.get? id

/-- Where some methods are done and the others in the queue are still to be lowered: these are the
methods that have a name, each of them once and under a name of its own that is a word. -/
structure Sound (program : Program) (done : List MethodId) (agenda : Agenda) : Prop where
  once : (done ++ agenda.queue).Nodup
  known : ∀ id ∈ done ++ agenda.queue, ∃ method, program.method? id = some method
  seen_iff : ∀ id, id ∈ agenda.seen ↔ id ∈ done ++ agenda.queue
  named_iff : ∀ id, (∃ name, agenda.nameOf? id = some name) ↔ id ∈ done ++ agenda.queue
  used : ∀ id name, agenda.nameOf? id = some name → name ∈ agenda.registry.used
  apart : ∀ one two name, agenda.nameOf? one = some name → agenda.nameOf? two = some name →
    one = two
  worded : ∀ id name, agenda.nameOf? id = some name → IsWord name

/-- The names and numbers that are handed out stay as they are. -/
structure Keeps (agenda later : Agenda) : Prop where
  names : ∀ id name, agenda.nameOf? id = some name → later.nameOf? id = some name
  spots : agenda.spots.order <+: later.spots.order

theorem Keeps.refl (agenda : Agenda) : agenda.Keeps agenda :=
  ⟨fun _ _ named => named, List.prefix_refl _⟩

/-- What is kept twice in a row is kept. -/
theorem Keeps.trans (first : agenda.Keeps middle) (second : middle.Keeps later) :
    agenda.Keeps later :=
  ⟨fun id name named => second.names id name (first.names id name named),
    first.spots.trans second.spots⟩

/-- While a method is lowered the agenda also stays sound. -/
structure Leads (program : Program) (agenda later : Agenda) : Prop extends agenda.Keeps later where
  sound : ∀ done, agenda.Sound program done → later.Sound program done

theorem Leads.refl (agenda : Agenda) : agenda.Leads program agenda :=
  ⟨.refl agenda, fun _ sound => sound⟩

/-- Agendas lead on from where they have led to. -/
theorem Leads.trans (first : agenda.Leads program middle) (second : middle.Leads program later) :
    agenda.Leads program later :=
  ⟨first.toKeeps.trans second.toKeeps,
    fun done sound => second.sound done (first.sound done sound)⟩

/-- Nothing has been handed out at the start. -/
theorem sound_empty : empty.Sound program [] :=
  ⟨.nil, nofun, fun _ => by simp [empty], fun _ => by simp [empty, nameOf?, Registry.empty], nofun,
    nofun, nofun⟩

/-- The first method of the queue is done. -/
theorem Sound.pop {done rest : List MethodId} (sound : agenda.Sound program done)
    (first : agenda.queue = id :: rest) :
    { agenda with queue := rest }.Sound program (done ++ [id]) := by
  have same : (done ++ [id]) ++ rest = done ++ agenda.queue := by simp [first]
  obtain ⟨once, known, seen_iff, named_iff, used, apart, worded⟩ := sound
  exact ⟨same ▸ once, same ▸ known, same ▸ seen_iff, same ▸ named_iff, used, apart, worded⟩

/-- There are no more methods in the queue than have not been done. -/
theorem Sound.length_le {done : List MethodId} (sound : agenda.Sound program done) :
    done.length + agenda.queue.length ≤ program.methods.size := by
  have known : done ++ agenda.queue ⊆ program.methods.keys := fun id member =>
    SortedMap.mem_keys_iff.2 (sound.known id member)
  have fewer := (sound.once.subperm known).length_le
  rwa [List.length_append, SortedMap.keys, List.length_map] at fewer

/-- Giving a position its number hands out no name. -/
theorem leads_unit {spot : Spot} : agenda.Leads program (agenda.unit spot).2 := by
  refine ⟨⟨fun _ _ named => named, ?_⟩, fun done sound => ⟨sound.once, sound.known, sound.seen_iff,
    sound.named_iff, sound.used, sound.apart, sound.worded⟩⟩
  change _ <+: (agenda.spots.number spot).2.order
  rw [Numbering.order_number]
  split
  · exact List.prefix_refl _
  · exact List.prefix_append _ _

/-- The number of an instruction is its position. -/
theorem unit_eq_idxOf {spot : Spot} (leads : (agenda.unit spot).2.Leads program later) :
    spot ∈ later.spots.order ∧ (agenda.unit spot).1 = later.spots.order.idxOf spot := by
  obtain ⟨more, same⟩ := leads.spots
  change (agenda.spots.number spot).2.order ++ more = _ at same
  change spot ∈ _ ∧ (agenda.spots.number spot).1 = _
  unfold Numbering.number at same ⊢
  split at same
  · next known =>
    rw [if_pos known, ← same, List.idxOf_append_of_mem known]
    exact ⟨List.mem_append_left _ known, rfl⟩
  · next fresh =>
    rw [if_neg fresh, ← same, List.append_assoc, List.idxOf_append_of_notMem fresh]
    exact ⟨by simp, by simp⟩

/-- A method that is named for the first time joins the queue. -/
theorem leads_request {method : Method} (isMethod : program.method? id = some method)
    {className : String} : agenda.Leads program (agenda.request id className name).2 := by
  unfold request Registry.nameFor
  cases known : agenda.registry.names.get? id with
  | some chosen =>
      dsimp only
      refine ⟨⟨fun other name named => ?_, ?_⟩, fun done sound => ?_⟩
      · split <;> exact named
      · split <;> exact List.prefix_refl _
      · have seen : id ∈ agenda.seen := (sound.seen_iff id).2 ((sound.named_iff id).1 ⟨_, known⟩)
        rw [if_pos seen]
        exact sound
  | none =>
      generalize isFree :
        agenda.registry.free (sanitized className ++ "_" ++ sanitized name) = chosen
      have free : chosen ∉ agenda.registry.used := isFree ▸ Registry.free_notMem
      have isWord : IsWord chosen := isFree ▸ Registry.isWord_free
        ((isWord_sanitized.append isWord_underscore).append isWord_sanitized)
      have names {other : MethodId} :
          (agenda.registry.names.insert id chosen).get? other =
            if id = other then some chosen else agenda.nameOf? other := SortedMap.get?_insert
      have kept (other : MethodId) (name : String) (named : agenda.nameOf? other = some name) :
          (agenda.registry.names.insert id chosen).get? other = some name := by
        rw [names, if_neg, named]
        rintro rfl
        cases known.symm.trans named
      dsimp only
      refine ⟨⟨fun other name named => ?_, ?_⟩, fun done sound => ?_⟩
      · split
        · exact kept other name named
        · exact kept other name named
      · split <;> exact List.prefix_refl _
      · have unnamed : id ∉ done ++ agenda.queue := fun member => by
          obtain ⟨name, named⟩ := (sound.named_iff id).2 member
          cases known.symm.trans named
        have unseen : id ∉ agenda.seen := fun seen => unnamed ((sound.seen_iff id).1 seen)
        rw [if_neg unseen]
        have joined : done ++ (agenda.queue ++ [id]) = (done ++ agenda.queue) ++ [id] := by simp
        constructor <;> dsimp only
        · rw [joined, List.nodup_append']
          exact ⟨sound.once, List.nodup_singleton _, by simpa using unnamed⟩
        · intro other member
          rw [joined, List.mem_append, List.mem_singleton] at member
          rcases member with member | rfl
          · exact sound.known other member
          · exact ⟨method, isMethod⟩
        · intro other
          rw [joined, List.mem_append, List.mem_singleton, SortedSet.mem_insert, sound.seen_iff,
            or_comm]
        · intro other
          rw [joined, List.mem_append, List.mem_singleton, ← sound.named_iff]
          simp only [nameOf?, names]
          split
          · next same => simp [same]
          · next differ => simp [Ne.symm differ]
        · intro other name named
          rw [nameOf?, names] at named
          rw [SortedSet.mem_insert]
          split at named
          · cases named
            exact .inl rfl
          · exact .inr (sound.used other name named)
        · intro one two name first second
          rw [nameOf?, names] at first second
          split at first <;> split at second
          · next same also => exact same.symm.trans also
          · next same other =>
            cases first
            exact absurd (sound.used two _ second) free
          · next other same =>
            cases second
            exact absurd (sound.used one _ first) free
          · exact sound.apart one two name first second
        · intro other name named
          rw [nameOf?, names] at named
          split at named
          · cases named
            exact isWord
          · exact sound.worded other name named

/-- A method has the name that it has just been given. -/
theorem nameOf?_request {className : String} :
    (agenda.request id className name).2.nameOf? id =
      some (agenda.request id className name).1 := by
  rw [nameOf?, registry_request, name_request]
  exact Registry.get?_nameFor

end Agenda

/-! ## Steps on the way to a later agenda -/

/-- The progress leads to a later agenda; within an instruction its number is known as well. -/
structure Progress.Within (program : Program) (later : Agenda) (unit : Option Nat)
    (progress : Progress) : Prop where
  leads : progress.agenda.Leads program later
  unit : ∀ number ∈ unit, progress.temporaries.unit = number

namespace Lower

variable {program : Program} {later : Agenda} {unit : Option Nat} {α β : Type}

/-- A step that makes no functions and hands out neither names nor numbers. -/
def Still (step : Lower α) : Prop :=
  ∀ progress answer after, step progress = .ok (answer, after) →
    after.helpers = progress.helpers ∧ after.agenda = progress.agenda ∧
      after.temporaries.unit = progress.temporaries.unit

namespace Still

theorem pure {value : α} : Still (pure value : Lower α) := by
  rintro progress answer after ⟨⟩
  exact ⟨rfl, rfl, rfl⟩

/-- Two steps in a row hand out nothing if neither does. -/
theorem bind {first : Lower α} {rest : α → Lower β} (one : Still first)
    (other : ∀ value, Still (rest value)) : Still (first >>= rest) := by
  intro progress answer after made
  obtain ⟨value, between, here, later⟩ := stepped_bind_iff.1 made
  obtain ⟨helpers, agenda, unit⟩ := one _ _ _ here
  obtain ⟨helpers', agenda', unit'⟩ := other value _ _ _ later
  exact ⟨helpers'.trans helpers, agenda'.trans agenda, unit'.trans unit⟩

theorem check {result : Except Rejection α} : Still (check result) := by
  intro progress answer after made
  obtain ⟨-, rfl⟩ := check_apply_iff.1 made
  exact ⟨rfl, rfl, rfl⟩

theorem throw {failure : Failure} : Still (throw failure : Lower α) := nofun

theorem reject {reason : Rejection} : Still (reject reason : Lower α) := nofun

/-- The steps for the values of a list hand out nothing if none of them does. -/
theorem mapM {step : α → Lower β} {list : List α} (each : ∀ a ∈ list, Still (step a)) :
    Still (list.mapM step) := by
  induction list with
  | nil => exact pure
  | cons first rest ih =>
      rw [List.mapM_cons]
      exact (each first (by simp)).bind fun value =>
        (ih fun a member => each a (List.mem_cons_of_mem _ member)).bind fun values => pure

theorem forM {step : α → Lower PUnit} {list : List α} (each : ∀ a ∈ list, Still (step a)) :
    Still (list.forM step) := by
  induction list with
  | nil => exact pure
  | cons first rest ih =>
      exact (each first (by simp)).bind fun _ => ih fun a member =>
        each a (List.mem_cons_of_mem _ member)

end Still

theorem still_get : Still (get : Lower Progress) := by
  rintro progress answer after ⟨⟩
  exact ⟨rfl, rfl, rfl⟩

/-- A fresh temporary is no name of a method, and leaves the number of the instruction. -/
theorem still_fresh {stem : String} : Still (fresh stem) := by
  rintro progress answer after ⟨⟩
  exact ⟨rfl, rfl, rfl⟩

/-- The flag of a coordinate is no name of a method. -/
theorem still_flag {coord : Coord} : Still (flag coord) := by
  rintro progress answer after ⟨⟩
  exact ⟨rfl, rfl, rfl⟩

theorem still_warn {warning : String} : Still (warn warning) := by
  rintro progress answer after ⟨⟩
  exact ⟨rfl, rfl, rfl⟩

/-- A step that hands out nothing answers on the way to any agenda. -/
theorem Still.answers {step : Lower α} (still : Still step) :
    Answers (·.Within program later unit) step fun _ => True := by
  intro progress answer after made within
  obtain ⟨helpers, agenda, number⟩ := still progress answer after made
  refine ⟨⟨agenda ▸ within.leads, fun value known => number ▸ within.unit value known⟩, [], ?_, rfl,
    trivial⟩
  rw [helpers, List.append_nil]

/-- The progress that is looked at is on the way to the later agenda. -/
theorem answers_get : Answers (·.Within program later unit) (get : Lower Progress)
    fun progress => progress.Within program later unit :=
  .of_eq id id (fun _ => rfl) (fun _ => rfl) fun _ within => ⟨within, within⟩

/-- A name that is handed out is the name of its method later. -/
theorem answers_request {id : MethodId} {method : Method}
    (isMethod : program.method? id = some method) :
    Answers (·.Within program later unit) (request id method) fun name =>
      later.nameOf? id = some name := by
  refine .of_eq (fun progress => (progress.agenda.request id method.className method.name).1)
    (fun progress =>
      { progress with agenda := (progress.agenda.request id method.className method.name).2 })
    (fun _ => rfl) (fun _ => rfl) fun progress within => ?_
  exact ⟨⟨(Agenda.leads_request isMethod).trans within.leads, within.unit⟩,
    within.leads.names id _ Agenda.nameOf?_request⟩

/-- A helper function is all that is made when it is added. -/
theorem gives_addHelper {function : Target.Function} :
    Gives (·.Within program later unit) (addHelper function) fun _ made => made = [function] := by
  rintro progress answer after ⟨⟩ within
  exact ⟨⟨within.leads, within.unit⟩, _, rfl, rfl⟩

/-- An instruction is lowered under the number of its position. -/
theorem gives_enter_bind {spot : Spot} {first : Lower α} {rest : α → Lower β}
    {middle : Nat → α → List Target.Function → Prop} {post : β → List Target.Function → Prop}
    (one : ∀ number, Gives (·.Within program later (some number)) first (middle number))
    (other : ∀ value, Gives (·.Within program later none) (rest value) fun answer more =>
      ∀ made, spot ∈ later.spots.order → middle (later.spots.order.idxOf spot) value made →
        post answer (made ++ more)) :
    Gives (·.Within program later none) (enter spot >>= fun _ => first >>= rest) post := by
  intro progress answer after made within
  obtain ⟨_, between, entered, made⟩ := stepped_bind_iff.1 made
  cases entered
  obtain ⟨value, done, head, made⟩ := stepped_bind_iff.1 made
  obtain ⟨withinDone, more, last, goes⟩ := other value done answer after made within
  -- The number at the end of the instruction is the one that it was entered with.
  obtain ⟨withinEntered, made, isLast, found⟩ := one done.temporaries.unit _ value done head
    ⟨withinDone.leads, fun _ same => Option.mem_some_iff.1 same⟩
  have number := withinEntered.unit _ rfl
  obtain ⟨member, position⟩ := Agenda.unit_eq_idxOf withinEntered.leads
  have same : later.spots.order.idxOf spot = done.temporaries.unit := position.symm.trans number
  refine ⟨⟨Agenda.leads_unit.trans withinEntered.leads, nofun⟩, made ++ more, ?_, ?_⟩
  · rw [last, isLast, List.append_assoc]
  · exact goes made member (same ▸ found)

/-! ## All methods -/

variable {setting : Setting} {Good : Agenda → MethodId → MethodCode → Prop}

/-- The progress when the entry method has been asked for. -/
def begun (setting : Setting) (method : Method) : Progress :=
  { Progress.start with
    agenda := (Agenda.empty.request setting.program.entry method.className method.name).2 }

/-- The entry method is all that has been asked for when lowering begins. -/
theorem sound_begun {method : Method}
    (isMethod : setting.program.method? setting.program.entry = some method) :
    (begun setting method).agenda.Sound setting.program [] :=
  (Agenda.leads_request isMethod).sound _ Agenda.sound_empty

/-- A program is lowered by lowering the methods in the queue, which has the entry at first. -/
theorem program_cases {lowered : LoweredProgram} {last : Progress}
    (ran : Lower.program setting .start = .ok (lowered, last)) :
    ∃ method codes, setting.program.method? setting.program.entry = some method ∧
      queued setting setting.program.methods.size (begun setting method) = .ok (codes, last) ∧
      lowered.program.entry = (begun setting method).agenda.nameOf? setting.program.entry ∧
      lowered.program.functions = codes.flatMap MethodCode.functions ∧
      lowered.flags = codes.map fun code => (code.name, code.flags) := by
  unfold Lower.program at ran
  dsimp only at ran
  cases isMethod : setting.program.method? setting.program.entry with
  | none =>
      simp only [isMethod] at ran
      cases ran
  | some method =>
      simp only [isMethod] at ran
      obtain ⟨name, _, begins, ran⟩ := stepped_bind_iff.1 ran
      obtain ⟨codes, _, goes, ran⟩ := stepped_bind_iff.1 ran
      obtain ⟨_, _, found, ran⟩ := stepped_bind_iff.1 ran
      have starts : request setting.program.entry method .start =
          .ok ((Agenda.empty.request setting.program.entry method.className method.name).1,
            begun setting method) := rfl
      obtain ⟨rfl, rfl⟩ := Prod.mk.inj (Except.ok.inj (starts.symm.trans begins))
      cases found
      cases ran
      exact ⟨method, codes, rfl, goes, Agenda.nameOf?_request.symm, rfl, rfl⟩

/-- Where the queue is empty, nothing more is lowered. -/
theorem queued_nil {steps : Nat} {progress : Progress} (empty : progress.agenda.queue = []) :
    queued setting steps progress = .ok ([], progress) := by
  cases steps with
  | zero => rfl
  | succ steps => simp [queued, bind_apply, empty, ok_bind]

/-- The first method of the queue is lowered, and then the others and those that have joined. -/
theorem queued_cons {steps : Nat} {progress : Progress} {id : MethodId} {rest : List MethodId}
    {method : Method} (first : progress.agenda.queue = id :: rest)
    (isMethod : setting.program.method? id = some method) :
    queued setting (steps + 1) progress =
      (Lower.method setting id method >>= fun code => queued setting steps >>= fun others =>
        pure (code :: others))
        { progress with agenda := { progress.agenda with queue := rest } } := by
  rw [queued]
  simp only [bind_apply, get_apply, ok_bind, first, isMethod, set_apply]

section Queue

variable
  (mono : ∀ agenda later id code, Agenda.Keeps agenda later → Good agenda id code →
    Good later id code)
  (each : ∀ id method progress code after, setting.program.method? id = some method →
    Lower.method setting id method progress = .ok (code, after) →
      progress.agenda.Leads setting.program after.agenda ∧ Good after.agenda id code)

include mono each

/-- Of the methods that are lowered one after the other, each one is lowered once, and the queue
runs empty if there are steps enough. -/
theorem forall₂_queued {steps : Nat} {progress last : Progress} {codes : List MethodCode}
    {done : List MethodId} (sound : progress.agenda.Sound setting.program done)
    (ran : queued setting steps progress = .ok (codes, last)) :
    ∃ ids, last.agenda.Sound setting.program (done ++ ids) ∧
      List.Forall₂ (Good last.agenda) ids codes ∧ progress.agenda.Keeps last.agenda ∧
      (last.agenda.queue = [] ∨ ids.length = steps) := by
  induction steps generalizing progress codes done with
  | zero =>
      cases ran
      exact ⟨[], by simpa using sound, .nil, .refl _, .inr rfl⟩
  | succ steps ih =>
      cases first : progress.agenda.queue with
      | nil =>
          rw [queued_nil first] at ran
          cases ran
          exact ⟨[], by simpa using sound, .nil, .refl _, .inl first⟩
      | cons id rest =>
          obtain ⟨method, isMethod⟩ := sound.known id (by simp [first])
          rw [queued_cons first isMethod] at ran
          obtain ⟨code, between, one, ran⟩ := stepped_bind_iff.1 ran
          obtain ⟨others, _, more, ends⟩ := stepped_bind_iff.1 ran
          cases ends
          obtain ⟨leads, good⟩ := each id method _ code between isMethod one
          obtain ⟨ids, isSound, goods, keeps, ending⟩ := ih (leads.sound _ (sound.pop first)) more
          refine ⟨id :: ids, by simpa using isSound, .cons (mono _ _ _ _ keeps good) goods,
            ⟨fun other name named => keeps.names other name (leads.names other name named),
              leads.spots.trans keeps.spots⟩, ?_⟩
          rw [List.length_cons]
          exact ending.imp_right fun same => by rw [same]

/-- In a lowered program each method that has a name is lowered once. -/
theorem forall₂_program {lowered : LoweredProgram} {last : Progress}
    (ran : Lower.program setting .start = .ok (lowered, last)) :
    ∃ ids codes, last.agenda.Sound setting.program ids ∧ last.agenda.queue = [] ∧
      List.Forall₂ (Good last.agenda) ids codes ∧
      lowered.program.functions = codes.flatMap MethodCode.functions ∧
      lowered.flags = codes.map fun code => (code.name, code.flags) := by
  obtain ⟨method, codes, isMethod, goes, -, functions, flags⟩ := program_cases ran
  obtain ⟨ids, sound, goods, -, ending⟩ := forall₂_queued mono each (sound_begun isMethod) goes
  rw [List.nil_append] at sound
  refine ⟨ids, codes, sound, ?_, goods, functions, flags⟩
  rcases ending with empty | full
  · exact empty
  · -- A method in the queue would be one more than there are.
    have fewer := sound.length_le
    exact List.eq_nil_of_length_eq_zero (by omega)

end Queue

end Lower

end GotoFree
