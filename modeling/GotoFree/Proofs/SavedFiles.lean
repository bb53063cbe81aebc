import Mathlib
import GotoFree.CommandLine.Run
import GotoFree.Program.Encode
import GotoFree.Proofs.Check

/-!
# Files that a run leaves behind

A run that stops at its input leaves the file system as it was. A run that succeeds has written the
tables behind the program, so the file for the tables holds them; the file for the program holds the
program unless both paths lead to one file, which then holds the tables (`lowerFile_saves`). Making
directories and writing files takes nothing away (`FileSystem.Adds`, `FileSystem.Keeps`), so paths
lead to the same places later.
-/

namespace GotoFree

namespace FileSystem

variable {system middle after : FileSystem} {location other : Location} {path text : String}

/-! ## What is kept -/

/-- Nothing that is there changes. -/
structure Adds (system after : FileSystem) : Prop where
  working : after.working = system.working
  nodes : ∀ location node, system.node? location = some node → after.node? location = some node

/-- Directories stay, and relative paths start where they did. -/
structure Keeps (system after : FileSystem) : Prop where
  working : after.working = system.working
  directories : ∀ location, system.node? location = some .directory →
    after.node? location = some .directory

theorem Adds.refl (system : FileSystem) : system.Adds system := ⟨rfl, fun _ _ found => found⟩

theorem Adds.trans (first : system.Adds middle) (second : middle.Adds after) : system.Adds after :=
  ⟨second.working.trans first.working,
    fun location node found => second.nodes location node (first.nodes location node found)⟩

/-- What is added keeps what was there. -/
theorem Adds.keeps (adds : system.Adds after) : system.Keeps after :=
  ⟨adds.working, fun location found => adds.nodes location _ found⟩

/-- What is kept twice in a row is kept. -/
theorem Keeps.trans (first : system.Keeps middle) (second : middle.Keeps after) :
    system.Keeps after :=
  ⟨second.working.trans first.working,
    fun location found => second.directories location (first.directories location found)⟩

/-- A path leads where it did among what is kept. -/
theorem Keeps.walk (keeps : system.Keeps after) {segments : List String} {found : Location}
    (walks : system.walk location segments = some found) :
    after.walk location segments = some found := by
  induction segments generalizing location with
  | nil => exact walks
  | cons segment rest ih =>
      rw [FileSystem.walk, Option.ite_none_right_eq_some, Bool.and_eq_true, isDirectory,
        decide_eq_true_eq] at walks
      obtain ⟨⟨directory, isShort⟩, walks⟩ := walks
      rw [FileSystem.walk, if_pos, ih walks]
      simp [isDirectory, keeps.directories location directory, isShort]

/-- A path leads to the same place later. -/
theorem Keeps.locate (keeps : system.Keeps after) (found : system.locate path = some location) :
    after.locate path = some location := by
  have starts : after.start? path = system.start? path := by
    simp only [start?, keeps.working]
  obtain ⟨⟨start, segments⟩, starting, walks⟩ := Option.bind_eq_some_iff.1 found
  exact Option.bind_eq_some_iff.2 ⟨(start, segments), starts.trans starting, keeps.walk walks⟩

/-! ## Putting something at a place -/

/-- A node that is put is found at its place, and the others where they were. -/
theorem node?_put {node : FileNode} (inside : location ≠ []) :
    (system.put location node).node? other =
      if location = other then some node else system.node? other := by
  unfold put node?
  by_cases root : other = []
  · simp [root, inside]
  · simp [root, SortedMap.get?_insert]

/-- A place that is no directory is not the root. -/
theorem ne_nil_of_node? (free : system.node? location ≠ some .directory) : location ≠ [] := by
  rintro rfl
  exact free rfl

/-- A place where nothing is can be filled. -/
theorem adds_put {node : FileNode} (free : system.node? location = none) :
    system.Adds (system.put location node) := by
  refine ⟨rfl, fun other found isFound => ?_⟩
  have notDirectory : system.node? location ≠ some .directory := by simp [free]
  have inside : location ≠ [] := ne_nil_of_node? notDirectory
  rw [node?_put inside, if_neg, isFound]
  rintro rfl
  cases free.symm.trans isFound

/-- A file can be replaced. -/
theorem keeps_put {node : FileNode} (free : system.node? location ≠ some .directory) :
    system.Keeps (system.put location node) := by
  refine ⟨rfl, fun other directory => ?_⟩
  rw [node?_put (ne_nil_of_node? free), if_neg, directory]
  rintro rfl
  exact free directory

/-- Directories along a path are added. -/
theorem adds_makeAlong {segments : List String} :
    system.Adds (system.makeAlong location segments).2 := by
  induction segments generalizing system location with
  | nil => exact .refl system
  | cons segment rest ih =>
      unfold makeAlong
      dsimp only
      split
      · exact ih
      · exact .refl system
      · next free =>
        split
        · exact (adds_put free).trans ih
        · exact .refl system

/-- The directories of a path are added. -/
theorem adds_makeDirectories : system.Adds (system.makeDirectories path).2 := by
  unfold makeDirectories
  split
  · exact adds_makeAlong
  · exact .refl system

/-- A text is written to the place of its path, where no directory is. -/
theorem write_eq_true_iff : system.write path text = (true, after) ↔
    ∃ location, system.locate path = some location ∧
      system.node? location ≠ some .directory ∧ after = system.put location (.file text) := by
  unfold write
  cases system.locate path with
  | none => simp
  | some location =>
      dsimp only
      split
      · next directory => simp [directory]
      · next free => simp [free, eq_comm]
      · next free => simp [free, eq_comm]

/-- What is read at a path is the text of the file at its place. -/
theorem read_eq_some_iff : system.read path = some text ↔
    ∃ location, system.locate path = some location ∧ system.node? location = some (.file text) := by
  unfold read
  rw [Option.bind_eq_bind, Option.bind_eq_some_iff]
  refine exists_congr fun location => and_congr_right fun _ => ?_
  split
  · next found => simp [found]
  · next found => simp [found]
  · next found => simp [found]

/-! ## Runs -/

section Runs

variable {ε α β : Type} {first : ExceptT ε (StateM FileSystem) α}
  {rest : α → ExceptT ε (StateM FileSystem) β}

/-- A step that succeeds is followed by the rest, and one that fails by nothing. -/
theorem run_bind : (first >>= rest).run system =
    match first.run system with
    | (.ok value, middle) => (rest value).run middle
    | (.error fault, middle) => (.error fault, middle) := by
  change ExceptT.bindCont rest (first.run system).1 (first.run system).2 = _
  cases first.run system with
  | mk result middle => cases result <;> rfl

/-- Steps one after the other succeed if each of them does. -/
theorem run_bind_eq_ok_iff {answer : β} :
    (first >>= rest).run system = (.ok answer, after) ↔
      ∃ value middle, first.run system = (.ok value, middle) ∧
        (rest value).run middle = (.ok answer, after) := by
  rw [run_bind]
  cases first.run system with
  | mk result middle =>
      cases result with
      | error fault =>
          refine iff_of_false (fun same => by cases same) ?_
          rintro ⟨value, later, same, -⟩
          cases same
      | ok value =>
          refine ⟨fun goes => ⟨value, middle, rfl, goes⟩, ?_⟩
          rintro ⟨value, later, same, goes⟩
          cases same
          exact goes

/-- All faults of a step have a property. -/
def FaultsOnly (property : ε → Prop) (step : ExceptT ε (StateM FileSystem) α) : Prop :=
  ∀ system fault after, step.run system = (.error fault, after) → property fault

variable {property : ε → Prop}

/-- Two actions in a row fail for such reasons only if both do. -/
theorem FaultsOnly.bind (one : FaultsOnly property first)
    (other : ∀ value, FaultsOnly property (rest value)) : FaultsOnly property (first >>= rest) := by
  intro system fault after fails
  rw [run_bind] at fails
  cases ran : first.run system with
  | mk result middle =>
      rw [ran] at fails
      cases result with
      | error found =>
          cases fails
          exact one system _ _ ran
      | ok value => exact other value middle fault after fails

theorem FaultsOnly.pure (value : α) :
    FaultsOnly property (pure value : ExceptT ε (StateM FileSystem) α) := by
  intro system fault after fails
  cases fails

theorem FaultsOnly.lift {action : StateM FileSystem α} :
    FaultsOnly property (liftM action : ExceptT ε (StateM FileSystem) α) := by
  intro system fault after fails
  cases fails

theorem FaultsOnly.throw {found : ε} (holds : property found) :
    FaultsOnly property (throw found : ExceptT ε (StateM FileSystem) α) := by
  intro system fault after fails
  cases fails
  exact holds

/-- An action on the files answers and does what it says. -/
theorem eq_of_run_modifyGet {action : FileSystem → α × FileSystem} {value : α}
    (acted : (liftM (modifyGet action : StateM FileSystem α) : ExceptT ε (StateM FileSystem) α).run
      system = (.ok value, after)) : action system = (value, after) := by
  cases acted
  rfl

end Runs

/-! ## Saving -/

/-- The text of a file is written, or the run fails. -/
theorem write_of_run {answer : Unit}
    (done : (do
      if !(← disk.write path text) then throw (.unwritable path)
      : ExceptT RunFault (StateM FileSystem) Unit).run system = (.ok answer, after)) :
    system.write path text = (true, after) := by
  obtain ⟨succeeded, middle, acted, done⟩ := run_bind_eq_ok_iff.1 done
  have same : system.write path text = (succeeded, middle) := eq_of_run_modifyGet acted
  cases succeeded with
  | false => cases done
  | true =>
      cases done
      exact same

/-- A text is saved at the place of a path: it stands there, and what is at other places stays. -/
structure Saves (system : FileSystem) (path text : String) (location : Location)
    (after : FileSystem) : Prop where
  located : after.locate path = some location
  stored : after.node? location = some (.file text)
  keeps : system.Keeps after
  others : ∀ other node, other ≠ location → system.node? other = some node →
    after.node? other = some node

/-- A file that was saved is read. -/
theorem Saves.read (saves : system.Saves path text location after) : after.read path = some text :=
  read_eq_some_iff.2 ⟨location, saves.located, saves.stored⟩

/-- A text that is written where directories have been made before is saved. -/
theorem saves_of_write {made : FileSystem} (adds : system.Adds made)
    (wrote : made.write path text = (true, after)) :
    ∃ location, system.Saves path text location after := by
  obtain ⟨location, located, free, rfl⟩ := write_eq_true_iff.1 wrote
  have keeps : made.Keeps (made.put location (.file text)) := keeps_put free
  have node {other : Location} : (made.put location (.file text)).node? other =
      if location = other then some (.file text) else made.node? other :=
    node?_put (ne_nil_of_node? free)
  refine ⟨location, keeps.locate located, ?_, adds.keeps.trans keeps,
    fun other found apart isFound => ?_⟩
  · rw [node, if_pos rfl]
  · rw [node, if_neg (Ne.symm apart), adds.nodes other found isFound]

/-- Saving succeeds where the text is then found. -/
theorem saves_of_save {answer : Unit}
    (saved : (save disk path text).run system = (.ok answer, after)) :
    ∃ location, system.Saves path text location after := by
  unfold save at saved
  dsimp only at saved
  split at saved
  · next directory isParent =>
    obtain ⟨succeeded, made, acted, saved⟩ := run_bind_eq_ok_iff.1 saved
    have same : system.makeDirectories directory = (succeeded, made) := eq_of_run_modifyGet acted
    have adds : system.Adds (system.makeDirectories directory).2 := adds_makeDirectories
    rw [same] at adds
    cases succeeded with
    | false => cases saved
    | true => exact saves_of_write adds (write_of_run saved)
  · exact saves_of_write (.refl system) (write_of_run saved)

/-- What stands at the end in the file for the program: the program, unless the tables have been
written to the same place behind it. -/
def left (settings : Settings) (lowered : LoweredProgram) (after : FileSystem) (path : String) :
    String :=
  if settings.flags.any fun other => after.locate other = after.locate path then lowered.tables
  else lowered.program.text

variable {settings : Settings} {lowered : LoweredProgram}

/-- A file that has been saved before the tables holds them if it is at their place, and its own
text otherwise. -/
theorem Saves.read_after {middle : FileSystem} {tables flags : String} {place tablePlace : Location}
    (saves : system.Saves path text place middle)
    (later : middle.Saves flags tables tablePlace after) :
    after.read path = some (if after.locate flags = after.locate path then tables else text) := by
  have located := later.keeps.locate saves.located
  simp only [later.located, located, Option.some_inj]
  split
  · next same => exact read_eq_some_iff.2 ⟨place, located, same ▸ later.stored⟩
  · next apart =>
    exact read_eq_some_iff.2 ⟨place, located, later.others _ _ (Ne.symm apart) saves.stored⟩

/-- What is delivered is in the files that the settings name. -/
theorem read_of_deliver {printed : String}
    (delivered : (deliver disk settings lowered).run system = (.ok printed, after)) :
    (∀ path ∈ settings.flags, after.read path = some lowered.tables) ∧
      ∀ path ∈ settings.output, after.read path = some (left settings lowered after path) := by
  obtain ⟨model, output, flags, entry⟩ := settings
  cases output with
  | none =>
      cases flags with
      | none => exact ⟨nofun, nofun⟩
      | some flags =>
          obtain ⟨_, last, tables, ends⟩ := run_bind_eq_ok_iff.1 delivered
          cases ends
          obtain ⟨place, saves⟩ := saves_of_save tables
          exact ⟨fun path same => Option.mem_some_iff.1 same ▸ saves.read, nofun⟩
  | some output =>
      obtain ⟨_, middle, program, delivered⟩ := run_bind_eq_ok_iff.1 delivered
      obtain ⟨place, saves⟩ := saves_of_save program
      cases flags with
      | none =>
          cases delivered
          exact ⟨nofun, fun path same => Option.mem_some_iff.1 same ▸ saves.read⟩
      | some flags =>
          obtain ⟨_, last, tables, ends⟩ := run_bind_eq_ok_iff.1 delivered
          cases ends
          obtain ⟨tablePlace, later⟩ := saves_of_save tables
          simp only [left, Option.mem_some_iff, forall_eq', Option.any_some, decide_eq_true_eq]
          exact ⟨later.read, saves.read_after later⟩

end FileSystem

/-! ## Whole runs -/

/-- Whether a run stops at its input: it cannot be read, is no program description, or its program
is not lowered. -/
def RunFault.stopsAtInput : RunFault → Bool
  | unreadable _ | undecodable .. | rejected .. | defect _ => true
  | uncreatable _ | unwritable _ => false

section

variable {settings : Settings} {lowered : LoweredProgram} {input path text : String}
  {system : FileSystem}

/-- A program that does not compile stops the run at its input. -/
theorem stopsAtInput_of_compile {source : String} {fault : RunFault}
    (fails : compile settings input source = .error fault) : fault.stopsAtInput = true := by
  unfold compile at fails
  split at fails
  · cases fails
    rfl
  · split at fails <;> cases fails <;> rfl

/-- What fails while a text is saved is not the input's fault. -/
theorem FileSystem.faultsOnly_save :
    FaultsOnly (fun fault => fault.stopsAtInput = false) (save disk path text) := by
  have writes : FaultsOnly (fun fault => fault.stopsAtInput = false) (do
      if !(← disk.write path text) then throw (.unwritable path)
      : ExceptT RunFault (StateM FileSystem) Unit) := by
    refine .bind .lift fun written => ?_
    split
    · exact .throw rfl
    · exact .pure _
  unfold save
  dsimp only
  split
  · refine .bind .lift fun made => ?_
    split
    · exact .bind (.throw rfl) fun _ => writes
    · exact writes
  · exact writes

/-- Delivering fails behind the input only. -/
theorem FileSystem.faultsOnly_deliver (settings : Settings) (lowered : LoweredProgram) :
    FaultsOnly (fun fault => fault.stopsAtInput = false) (deliver disk settings lowered) := by
  unfold deliver
  dsimp only
  split
  · refine .bind faultsOnly_save fun _ => ?_
    split
    · exact .bind faultsOnly_save fun _ => .pure _
    · exact .pure _
  · split
    · exact .bind faultsOnly_save fun _ => .pure _
    · exact .pure _

/-- A run reads its input, lowers the program of it and delivers that. -/
theorem FileSystem.run_lowerFile : (lowerFile disk settings input).run system =
    match system.read input with
    | none => (.error (.unreadable input), system)
    | some source =>
        match compile settings input source with
        | .error fault => (.error fault, system)
        | .ok lowered =>
            (do return (lowered.warnings, ← deliver disk settings lowered)
              : ExceptT RunFault (StateM FileSystem) (List String × String)).run system := by
  have reads : (liftM (disk.read input) : ExceptT RunFault (StateM FileSystem) (Option String)).run
      system = (.ok (system.read input), system) := rfl
  unfold lowerFile
  rw [run_bind, reads]
  dsimp only
  split
  · next source isSource =>
    have compiles : (ExceptT.mk (pure (compile settings input source)) :
        ExceptT RunFault (StateM FileSystem) LoweredProgram).run system =
          (compile settings input source, system) := rfl
    rw [isSource, run_bind, compiles]
    dsimp only
    cases compile settings input source <;> rfl
  · next absent =>
    cases isSource : system.read input with
    | none => rfl
    | some source => exact (absent source isSource).elim

/-- The program of the input is lowered. -/
def FileSystem.Compiles (system : FileSystem) (settings : Settings) (input : String) : Prop :=
  ∃ source lowered, system.read input = some source ∧ compile settings input source = .ok lowered

/-- A run whose program is lowered delivers it. -/
theorem FileSystem.run_of_compile {source : String} (isSource : system.read input = some source)
    (compiles : compile settings input source = .ok lowered) :
    (lowerFile disk settings input).run system =
      (do return (lowered.warnings, ← deliver disk settings lowered)
        : ExceptT RunFault (StateM FileSystem) (List String × String)).run system := by
  rw [run_lowerFile, isSource]
  dsimp only
  rw [compiles]

/-- A run whose program is not lowered stops at its input. -/
theorem FileSystem.run_of_not_compiles (fails : ¬ system.Compiles settings input) :
    ∃ fault, fault.stopsAtInput = true ∧
      (lowerFile disk settings input).run system = (.error fault, system) := by
  rw [run_lowerFile]
  cases isSource : system.read input with
  | none => exact ⟨_, rfl, rfl⟩
  | some source =>
      dsimp only
      cases compiles : compile settings input source with
      | error fault => exact ⟨fault, stopsAtInput_of_compile compiles, rfl⟩
      | ok lowered => exact (fails ⟨source, lowered, isSource, compiles⟩).elim

/-- A run stops at its input exactly if the program of the input is not lowered, and then the file
system is as it was. After a run that succeeds, the file for the tables holds them, and the file for
the program holds the program, unless it is the same file. -/
theorem lowerFile_saves (settings : Settings) (input : String) (system : FileSystem) :
    (¬ system.Compiles settings input → ∃ fault, fault.stopsAtInput = true ∧
      (lowerFile FileSystem.disk settings input).run system = (.error fault, system)) ∧
    (∀ fault after, (lowerFile FileSystem.disk settings input).run system = (.error fault, after) →
      fault.stopsAtInput = true → ¬ system.Compiles settings input ∧ after = system) ∧
    ∀ answer after, (lowerFile FileSystem.disk settings input).run system = (.ok answer, after) →
      ∃ source lowered, system.read input = some source ∧
        compile settings input source = .ok lowered ∧
        (∀ path ∈ settings.flags, after.read path = some lowered.tables) ∧
        ∀ path ∈ settings.output,
          after.read path = some (FileSystem.left settings lowered after path) := by
  refine ⟨FileSystem.run_of_not_compiles, fun fault after fails stops => ?_,
    fun answer after succeeds => ?_⟩
  · have notCompiles : ¬ system.Compiles settings input := by
      rintro ⟨source, lowered, isSource, compiles⟩
      rw [FileSystem.run_of_compile isSource compiles] at fails
      have delivers := FileSystem.FaultsOnly.bind
        (FileSystem.faultsOnly_deliver settings lowered)
        (fun printed => .pure (lowered.warnings, printed)) system fault after fails
      cases stops.symm.trans delivers
    obtain ⟨found, -, ran⟩ := FileSystem.run_of_not_compiles notCompiles
    rw [ran] at fails
    cases fails
    exact ⟨notCompiles, rfl⟩
  · by_cases compiles : system.Compiles settings input
    · obtain ⟨source, lowered, isSource, compiles⟩ := compiles
      rw [FileSystem.run_of_compile isSource compiles] at succeeds
      obtain ⟨printed, last, delivered, ends⟩ := FileSystem.run_bind_eq_ok_iff.1 succeeds
      cases ends
      exact ⟨source, lowered, isSource, compiles, FileSystem.read_of_deliver delivered⟩
    · obtain ⟨fault, -, ran⟩ := FileSystem.run_of_not_compiles compiles
      rw [ran] at succeeds
      cases succeeds

/-! ## One place for both files -/

/-- A program that is parsed and lowered is compiled. -/
theorem compile_eq_ok {program : Program} {source : String}
    (parsed : Program.parse source = .ok program)
    (lowers : program.lower settings.model settings.entry = .ok lowered) :
    compile settings path source = .ok lowered := by
  simp only [compile, parsed, lowers]
  rfl

/-- A run delivers what was compiled from its input. -/
theorem FileSystem.run_of_deliver {source printed : String}
    (isSource : system.read input = some source)
    (compiles : compile settings input source = .ok lowered)
    (delivers : ((deliver disk settings lowered).run system).1.toOption = some printed) :
    (lowerFile disk settings input).run system =
      (.ok (lowered.warnings, printed), ((deliver disk settings lowered).run system).2) := by
  have ran : (deliver disk settings lowered).run system =
      (.ok printed, ((deliver disk settings lowered).run system).2) :=
    Prod.ext (eq_ok_of_toOption delivers) rfl
  rw [run_of_compile isSource compiles, run_bind, ran]
  rfl

end

/-- A program whose only method returns at once. -/
def idleProgram : Program where
  classes := []
  methods := .ofList [(.plain "A" "m", {
    className := "A"
    name := "m"
    isStatic := true
    params := []
    returnType := .void
    locals := []
    entry := ⟨0⟩
    blocks := [⟨⟨0⟩, [.ret none], []⟩]
    plan := none })]
  entry := .plain "A" "m"

/-- An idle program is compiled. -/
theorem compile_idle (output flags : Option String) : ∃ lowered,
    compile ⟨.mutable, output, flags, none⟩ "in" idleProgram.toJson.text = .ok lowered ∧
      lowered.program.text = "A_m() \x7b\n  return ()\n\x7d\n\n\x7b A_m() \x7d\n" ∧
      lowered.tables = "(flags)\n(tags)\n" := by
  have parses : (Program.read.whole idleProgram.toJson.chars).toOption = some idleProgram := by
    decide +kernel
  have lowers : (idleProgram.lower .mutable none).toOption.map
      (fun lowered => (lowered.program.text, lowered.tables)) =
        some ("A_m() \x7b\n  return ()\n\x7d\n\n\x7b A_m() \x7d\n", "(flags)\n(tags)\n") := by
    decide +kernel
  obtain ⟨lowered, made, texts⟩ := Option.map_eq_some_iff.1 lowers
  obtain ⟨text, tables⟩ := Prod.mk.inj texts
  have parsed : Program.parse idleProgram.toJson.text = .ok idleProgram := by
    rw [Program.parse, Json.Value.text, String.toList_ofList]
    exact eq_ok_of_toOption parses
  exact ⟨lowered, compile_eq_ok parsed (eq_ok_of_toOption made), text, tables⟩

/-- A file system with a text in its only file. -/
def oneFile (text : String) : FileSystem := ⟨.ofList [(["in"], .file text)], []⟩

section

variable {text : String} {lowered : LoweredProgram}

theorem read_oneFile : (oneFile text).read "in" = some text := by cbv

/-- The program and the tables at two paths, in a file system with one other file. -/
def delivered (text output flags : String) (lowered : LoweredProgram) :
    Except RunFault String × FileSystem :=
  (deliver FileSystem.disk ⟨.mutable, some output, some flags, none⟩ lowered).run (oneFile text)

/-- A program and its flags are saved in files of their own. -/
theorem lowerFile_saves_apart : ∃ answer after,
    (lowerFile FileSystem.disk ⟨.mutable, some "a", some "b", none⟩ "in").run
        (oneFile idleProgram.toJson.text) = (.ok answer, after) ∧
      after.read "a" = some "A_m() \x7b\n  return ()\n\x7d\n\n\x7b A_m() \x7d\n" ∧
      after.read "b" = some "(flags)\n(tags)\n" := by
  obtain ⟨lowered, compiles, isText, isTables⟩ :=
    compile_idle (some "a") (some "b")
  have delivers {text : String} : (delivered text "a" "b" lowered).1.toOption = some "" := by cbv
  have isProgram {text : String} : FileSystem.left ⟨.mutable, some "a", some "b", none⟩ lowered
      (delivered text "a" "b" lowered).2 "a" = lowered.program.text := by cbv
  have ran := FileSystem.run_of_deliver read_oneFile compiles delivers
  obtain ⟨source, found, isSource, compiled, ofFlags, ofOutput⟩ :=
    (lowerFile_saves _ _ _).2.2 _ _ ran
  obtain rfl : _ = source := Option.some.inj (read_oneFile.symm.trans isSource)
  obtain rfl : lowered = found := Except.ok.inj (compiles.symm.trans compiled)
  refine ⟨_, _, ran, ?_, ?_⟩
  · rw [ofOutput "a" rfl, ← isText]
    exact congrArg some isProgram
  · rw [ofFlags "b" rfl, isTables]

/-- If both paths lead to one place, the tables stand there and the program nowhere. -/
theorem not_saved_samePlace : ∃ lowered answer after,
    compile ⟨.mutable, some "a", some "a", none⟩ "in" idleProgram.toJson.text = .ok lowered ∧
      (lowerFile FileSystem.disk ⟨.mutable, some "a", some "a", none⟩ "in").run
        (oneFile idleProgram.toJson.text) = (.ok answer, after) ∧
      after.read "a" ≠ some lowered.program.text := by
  obtain ⟨lowered, compiles, isText, isTables⟩ :=
    compile_idle (some "a") (some "a")
  have delivers {text : String} : (delivered text "a" "a" lowered).1.toOption = some "" := by cbv
  have reads {text : String} :
      (delivered text "a" "a" lowered).2.read "a" = some lowered.tables := by cbv
  refine ⟨lowered, _, _, compiles, FileSystem.run_of_deliver read_oneFile compiles delivers, ?_⟩
  rw [← delivered, reads, isText, isTables]
  decide

end

end GotoFree
