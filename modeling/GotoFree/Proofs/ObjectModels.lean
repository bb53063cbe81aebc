import GotoFree.Proofs.FunctionNames
import GotoFree.Proofs.RecastJobs

/-!
# The object models make the same functions

A program that is lowered for the functional model is lowered for the mutable one, and the code is
recast (`Program.lower_mutable`). The mutable model asks for nothing more: only the functional model
refuses to write to a field, where the object has no cell to go into.
-/

namespace GotoFree

open Target (Script)

/-- A method for the functional model and the same one for the mutable model. -/
structure MethodCode.Recast (one other : MethodCode) : Prop where
  functions : List.Forall₂ Target.Function.Recast one.functions other.functions
  name : one.name = other.name
  flags : one.flags = other.flags

/-- A lowered program for the functional model and the same one for the mutable model. -/
structure LoweredProgram.Recast (one other : LoweredProgram) : Prop where
  functions : List.Forall₂ Target.Function.Recast one.program.functions other.program.functions
  entry : one.program.entry = other.program.entry
  flags : one.flags = other.flags
  tags : one.tags = other.tags
  warnings : one.warnings = other.warnings

/-- The locals of the entry are introduced alike in both models. -/
theorem Job.recasts_introduceEntry {job : Job} {scope : Scope}
    {locals : List (String × Binding)} :
    job.Recasts (Lower.check <| ·.introduceEntry scope locals) Eq := by
  have same (model : ObjectModel) : (job.inModel model).introduceEntry scope locals =
      job.introduceEntry scope locals := by
    induction locals generalizing scope with
    | nil => rfl
    | cons first rest ih =>
        simp only [introduceEntry, ih]
        rfl
  unfold Recasts
  beta_reduce
  rw [same, same]
  exact Lower.Steady.check _

namespace Lower

variable {setting : Setting} {id : MethodId} {method : Method}

/-- A method is structured alike in both models. -/
theorem steady_structured : Steady (structured id method) := by
  unfold structured
  split
  · exact .reject
  · next graph _ =>
    refine Steady.bind (.forM fun warning => .warn) fun _ => ?_
    split
    · exact .reject
    · exact .throw
    · exact .rely _

/-- A method is lowered alike in both models, up to how objects are kept. -/
theorem recasts_method :
    Recasts (Lower.method (setting.inModel .functional) id method)
      (Lower.method (setting.inModel .mutable) id method) MethodCode.Recast := by
  refine Recasts.andThen .request fun function => ?_
  refine Recasts.andThen (.check _) fun plan => ?_
  refine Recasts.andThen steady_structured ?_
  rintro ⟨tree, flags⟩
  refine Recasts.bind (.modify fun _ _ same =>
    ⟨same.agenda, rfl, same.temporaries, same.warnings, .nil⟩) fun _ _ _ => ?_
  let job : Job := ⟨setting, id, method, function, plan, flags⟩
  refine Recasts.bind (job.recasts_introduceEntry) ?_
  rintro ⟨entry, scope⟩ _ rfl
  refine (job.recasts_tree scope tree).bind ?_
  rintro ⟨steps, after⟩ ⟨steps', _⟩ ⟨recast, rfl⟩
  refine Recasts.get.bind fun progress progress' same => .pure ?_
  let begins : Script :=
    (if job.hasControlCell then [Script.bindCell controlCell (.int 0)] else []) ++ entry
  have body : Target.Recast false ((job.inModel .functional).closed after (begins ++ steps))
      ((job.inModel .mutable).closed after (begins ++ steps')) :=
    Job.closed_recast ((Script.Recast.refl begins).append recast)
  refine ⟨List.rel_append same.helpers (.cons ⟨rfl, rfl, body⟩ .nil), rfl, ?_⟩
  rw [same.recorded]

/-- The methods in the queue are lowered alike in both models. -/
theorem recasts_queued {steps : Nat} :
    Recasts (queued (setting.inModel .functional) steps)
      (queued (setting.inModel .mutable) steps) (List.Forall₂ MethodCode.Recast) := by
  induction steps with
  | zero => exact .pure .nil
  | succ steps ih =>
      unfold queued
      refine Recasts.get.bind fun progress progress' same => ?_
      rw [same.agenda]
      cases progress'.agenda.queue with
      | nil => exact .pure .nil
      | cons id queue =>
          refine Recasts.bind (.set ⟨rfl, same.recorded, same.temporaries, same.warnings,
            same.helpers⟩) fun _ _ _ => ?_
          dsimp only [Setting.inModel]
          split
          · exact .reject
          · refine recasts_method.bind fun code code' here => ?_
            exact ih.bind fun codes codes' later => .pure (.cons here later)

/-- A program is lowered alike in both models. -/
theorem recasts_program (setting : Setting) :
    Recasts (Lower.program (setting.inModel .functional))
      (Lower.program (setting.inModel .mutable)) LoweredProgram.Recast := by
  unfold Lower.program
  dsimp only [Setting.inModel]
  split
  · exact .reject
  · refine Recasts.andThen .request fun name => ?_
    refine recasts_queued.bind fun codes codes' recast => ?_
    refine Recasts.get.bind fun progress progress' same => .pure ?_
    have flags : codes.map (fun code => (code.name, code.flags)) =
        codes'.map fun code => (code.name, code.flags) := by
      rw [← List.forall₂_eq_eq_eq]
      exact List.rel_map (fun _ _ here => by rw [here.name, here.flags]) recast
    exact ⟨List.rel_flatMap recast fun _ _ here => here.functions, rfl, flags, rfl, same.warnings⟩

end Lower

/-- What is lowered for the functional model is lowered for the mutable one. Both have the same
functions in the same order, with the same names and parameters, and the same entry, flags, tags and
warnings; only the code that makes objects, accesses their fields, follows a path or reads a tag
differs. -/
theorem Program.lower_mutable {program : Program} {entry : Option MethodId}
    {functional : LoweredProgram} (lowers : program.lower .functional entry = .ok functional) :
    ∃ mutable, program.lower .mutable entry = .ok mutable ∧ functional.Recast mutable := by
  obtain ⟨prepared, layout, last, chosen, made, ran⟩ := lower_eq_ok_iff.1 lowers
  have start : Progress.start.Recast Progress.start := ⟨rfl, rfl, rfl, rfl, .nil⟩
  obtain ⟨mutable, last', goes, recast, -⟩ :=
    Lower.recasts_program ⟨prepared, layout, .functional⟩ _ _ _ _ start ran
  exact ⟨mutable, lower_eq_ok_iff.2 ⟨prepared, layout, last', chosen, made, goes⟩, recast⟩

/-- A method that keeps a tally in a field of its object. -/
def tallyingMethod (className : String) : Method where
  className := className
  name := "tally"
  isStatic := false
  params := []
  returnType := .void
  locals := [⟨"self", .ref className⟩, ⟨"n", .int⟩]
  entry := ⟨0⟩
  blocks := [⟨⟨0⟩, [.identity "self" .this,
    .assign (.var "n") (.fieldRead "self" ⟨"A", "total"⟩ (.ofList ["A", "B"])),
    .assign (.var "n") (.binary .add (.var "n") (.int 1)),
    .assign (.field "self" ⟨"A", "total"⟩ (.ofList ["A", "B"])) (.use (.var "n")),
    .ret none], []⟩]
  plan := none

/-- A method that makes an object and calls it once. -/
def tallyingMain : Method where
  className := "Main"
  name := "main"
  isStatic := true
  params := []
  returnType := .void
  locals := [⟨"x", .ref "A"⟩]
  entry := ⟨0⟩
  blocks := [⟨⟨0⟩, [.assign (.var "x") (.new "B"),
    .call ⟨.virtual, ⟨"A", "tally", 0⟩, some "x", [], .ofList ["A", "B"]⟩, .ret none], []⟩]
  plan := none

/-- A program with a class and a subclass that both keep a tally. -/
def tallyingProgram : Program where
  classes := [⟨"A", none, [⟨"total", .int⟩]⟩, ⟨"B", some "A", []⟩]
  methods := .ofList [(.plain "Main" "main", tallyingMain),
    (.plain "A" "tally", tallyingMethod "A"), (.plain "B" "tally", tallyingMethod "B")]
  entry := .plain "Main" "main"

/-- A program that counts is lowered in both models. -/
theorem Program.lower_mutable_tallying : ∃ functional mutable,
    tallyingProgram.lower .functional none = .ok functional ∧
      tallyingProgram.lower .mutable none = .ok mutable ∧ functional.Recast mutable := by
  have isOk : (tallyingProgram.lower .functional none).isOk = true := by decide +kernel
  cases lowers : tallyingProgram.lower .functional none with
  | error failure =>
      rw [lowers] at isOk
      cases isOk
  | ok functional =>
      obtain ⟨mutable, goes, recast⟩ := lower_mutable lowers
      exact ⟨functional, mutable, rfl, goes, recast⟩

end GotoFree
