import GotoFree.Proofs.HiddenCells
import GotoFree.Proofs.ScopedScripts

/-!
# Confined code

Code may use a hidden cell under some names, as long as it uses these names for nothing but the
content of the cell, or to pass the cell on to functions that treat it alike (`Secrets`,
`Stmt.Confined`). A run of such code leaves the content of the cell as it is, whatever functions it
calls (`Stmt.discreet_exec`, `Program.Keeps.keptBy`).
-/

namespace GotoFree.Target

/-! ## Secrets -/

/-- What code keeps to itself: some names stand for hidden cells, others for the content of these
cells, and some functions, given by their names and parameters, are in the secret. -/
structure Secrets where
  cell : String → Prop
  content : String → Prop
  shares : String → List String → Prop
  apart : ∀ name, content name → ¬ cell name

/-- Nothing is kept. -/
def Secrets.none : Secrets := ⟨fun _ => False, fun _ => False, fun _ _ => False, nofun⟩

mutual

/-- An expression uses the names of hidden cells for their content only, or passes them on to a
function that is in the secret, under the names that it has for them. -/
def Expr.Confined (secrets : Secrets) : Expr → Prop
  | .var name => ¬ secrets.cell name
  | .int _ | .bool _ | .null | .unit | .nondet => True
  | .deref cell => (∃ name, cell = .var name) ∨ cell.Confined secrets
  | .mkRef inner | .mkArray inner | .length inner | .proj inner _ | .unary _ inner =>
      inner.Confined secrets
  | .index left right | .binary _ left right => left.Confined secrets ∧ right.Confined secrets
  | .tuple components => ConfinedAll secrets components
  | .call function args =>
      (∃ params, secrets.shares function params ∧ args = params.map .var) ∨ ConfinedAll secrets args

/-- Some expressions use the names of hidden cells for their content only. -/
def Expr.ConfinedAll (secrets : Secrets) : List Expr → Prop
  | [] => True
  | expr :: rest => expr.Confined secrets ∧ ConfinedAll secrets rest

end

/-- A name becomes that of a hidden cell where it is bound to a new one with the content, and that
of the content where it is bound to it. Other names are bound to what may be known. -/
inductive Secrets.Binds (secrets : Secrets) : Pattern → Expr → Prop
  | others {pattern : Pattern} {value : Expr} (inner : value.Confined secrets)
      (free : ∀ name ∈ pattern.names, ¬ secrets.cell name ∧ ¬ secrets.content name) :
      Binds secrets pattern value
  | cell {name copied : String} (isCell : secrets.cell name) (isContent : secrets.content copied) :
      Binds secrets (.var name) (.mkRef (.var copied))
  | content {name copied : String} (named : secrets.content name)
      (isContent : secrets.content copied) : Binds secrets (.var name) (.var copied)

/-- A statement itself keeps secrets. -/
def Stmt.Confined (secrets : Secrets) : Stmt → Prop
  | .bind pattern value _ => secrets.Binds pattern value
  | .assign target value => ¬ secrets.cell target ∧ value.Confined secrets
  | .arrayStore array position value =>
      array.Confined secrets ∧ position.Confined secrets ∧ value.Confined secrets
  | .cond value _ _ | .ret value | .assert value | .expr value => value.Confined secrets
  | .aliased _ _ => True

/-- The statements in some statements, each without those in it. -/
def Stmt.flattened (stmts : List Stmt) : List Stmt := collectAll (fun stmt => [stmt]) stmts

/-- Statements, and all statements in them, keep secrets. -/
def Stmt.AllConfined (secrets : Secrets) (stmts : List Stmt) : Prop :=
  ∀ stmt ∈ flattened stmts, stmt.Confined secrets

namespace Stmt.AllConfined

variable {secrets : Secrets} {stmt : Stmt} {rest body thenBranch elseBranch : List Stmt}
  {pattern : Pattern} {value : Expr}

/-- Statements in a row are confined if each of them is. -/
theorem cons_iff : AllConfined secrets (stmt :: rest) ↔
    AllConfined secrets [stmt] ∧ AllConfined secrets rest := by
  simp [AllConfined, flattened, or_imp, forall_and]

theorem bind_iff : AllConfined secrets [.bind pattern value body] ↔
    secrets.Binds pattern value ∧ AllConfined secrets body := by
  simp [AllConfined, flattened, collect, Confined]

/-- A conditional is confined if its test and its branches are. -/
theorem cond_iff : AllConfined secrets [.cond value thenBranch elseBranch] ↔
    value.Confined secrets ∧ AllConfined secrets thenBranch ∧
      AllConfined secrets elseBranch := by
  simp [AllConfined, flattened, collect, Confined, or_imp, forall_and]

theorem head (confined : AllConfined secrets [stmt]) : stmt.Confined secrets := by
  cases stmt with
  | bind => exact (bind_iff.1 confined).1
  | cond => exact (cond_iff.1 confined).1
  | _ => exact confined _ List.mem_cons_self

end Stmt.AllConfined

namespace Expr

variable {secrets : Secrets} {value test : Expr}

theorem confinedAll_iff {exprs : List Expr} :
    ConfinedAll secrets exprs ↔ ∀ expr ∈ exprs, expr.Confined secrets := by
  induction exprs with
  | nil => simp [ConfinedAll]
  | cons first rest ih => simp [ConfinedAll, ih]

theorem confined_contentOf {name : String} : (contentOf name).Confined secrets :=
  .inl ⟨name, rfl⟩

/-- A test whether a value is one of some numbers is confined if the value is. -/
theorem confined_anyOf? {numbers : List Int} (inner : value.Confined secrets)
    (isTest : value.anyOf? numbers = some test) : test.Confined secrets := by
  have folded (rest : List Int) (front : Expr) (start : front.Confined secrets) :
      (rest.foldl (fun tests number => binary .or tests (binary .eq value (.int number)))
        front).Confined secrets := by
    induction rest generalizing front with
    | nil => exact start
    | cons number rest ih => exact ih _ ⟨start, inner, trivial⟩
  cases numbers with
  | nil => cases isTest
  | cons first rest =>
      cases isTest
      exact folded rest _ ⟨inner, trivial⟩

end Expr

namespace Script

/-- All statements in a script keep secrets. -/
def Confined (secrets : Secrets) (script : Script) : Prop :=
  ∀ stmt ∈ script.collect fun stmt => [stmt], stmt.Confined secrets

variable {secrets : Secrets} {script other : Script} {pattern : Pattern} {name : String}
  {value : Expr}

/-- A script is confined if its statements are. -/
theorem confined_stmts_iff : Stmt.AllConfined secrets script.stmts ↔ script.Confined secrets := by
  rw [Stmt.AllConfined, Stmt.flattened, collect_stmts, Confined]

@[simp] theorem confined_nil : Confined secrets [] := nofun

/-- Scripts in a row are confined if both of them are. -/
@[simp] theorem confined_append :
    (script ++ other).Confined secrets ↔ script.Confined secrets ∧ other.Confined secrets := by
  simp only [Confined, collect_append, List.forall_mem_append]

/-- A script in parts is confined if all parts are. -/
theorem confined_flatMap {α : Type} {list : List α} {part : α → Script}
    (each : ∀ value ∈ list, (part value).Confined secrets) :
    Confined secrets (list.flatMap part) := by
  induction list with
  | nil => exact confined_nil
  | cons first rest ih =>
      obtain ⟨own, others⟩ := List.forall_mem_cons.1 each
      exact confined_append.2 ⟨own, ih others⟩

theorem confined_cons {step : Step} :
    Confined secrets (step :: script) ↔ Confined secrets [step] ∧ script.Confined secrets :=
  @confined_append secrets [step] script

@[simp] theorem confined_bind : Confined secrets [.bind pattern value] ↔
    secrets.Binds pattern value :=
  List.forall_mem_singleton

theorem confined_stmt {stmt : Stmt} :
    Confined secrets [.stmt stmt] ↔ Stmt.AllConfined secrets [stmt] := by
  simp [Confined, Stmt.AllConfined, Stmt.flattened, Step.collect]

theorem confined_ofStmts {stmts : List Stmt} :
    (ofStmts stmts).Confined secrets ↔ Stmt.AllConfined secrets stmts := by
  rw [Confined, collect_ofStmts, Stmt.AllConfined, Stmt.flattened]

theorem confined_ret : Confined secrets [ret value] ↔ value.Confined secrets :=
  List.forall_mem_singleton

/-- An assignment is confined if it stores no secret, and stores into no secret cell. -/
theorem confined_assign : Confined secrets [assign name value] ↔
    ¬ secrets.cell name ∧ value.Confined secrets :=
  List.forall_mem_singleton

/-- Statements that tie names together keep every secret. -/
theorem confined_aliases {stmts : List Stmt}
    (each : ∀ stmt ∈ stmts, ∃ left right, stmt = .aliased left right) :
    (ofStmts stmts).Confined secrets := by
  rw [confined_ofStmts]
  induction stmts with
  | nil => exact nofun
  | cons first rest ih =>
      obtain ⟨⟨left, right, rfl⟩, others⟩ := List.forall_mem_cons.1 each
      exact Stmt.AllConfined.cons_iff.2 ⟨List.forall_mem_singleton.2 trivial, ih others⟩

end Script

/-- What a name may stand for: that of a hidden cell for one, that of the content for it, and only
those of hidden cells for what holds one. -/
structure Secrets.Allows (secrets : Secrets) (hidden : List Nat) (content : Value) (count : Nat)
    (name : String) (value : Value) : Prop where
  cell : secrets.cell name → ∃ address ∈ hidden, value = .cell address
  content : secrets.content name → value = content
  others : ¬ secrets.cell name → value.Public hidden count

/-- The names in scope stand for what they may stand for. -/
def Env.Keeps (secrets : Secrets) (hidden : List Nat) (content : Value) (count : Nat) (env : Env) :
    Prop :=
  ∀ name value, env.lookup name = some value → secrets.Allows hidden content count name value

section Keeps

variable {secrets : Secrets} {hidden : List Nat} {content value : Value} {count later : Nat}
  {name : String} {env names : Env}

/-- What is allowed now is allowed when there are more cells. -/
theorem Secrets.Allows.mono (allows : secrets.Allows hidden content count name value)
    (grown : count ≤ later) : secrets.Allows hidden content later name value :=
  ⟨allows.cell, allows.content, fun isOther => (allows.others isOther).mono grown⟩

/-- A name stands for the same when a cell is hidden that has not been made yet. -/
theorem Secrets.Allows.hide (allows : secrets.Allows hidden content count name value) :
    secrets.Allows (count :: hidden) content count name value where
  cell isCell := by
    obtain ⟨address, member, same⟩ := allows.cell isCell
    exact ⟨address, List.mem_cons_of_mem _ member, same⟩
  content := allows.content
  others isOther := (allows.others isOther).hide

namespace Env.Keeps

/-- An environment that keeps secrets does so when there are more cells. -/
theorem mono (keeps : env.Keeps secrets hidden content count) (grown : count ≤ later) :
    env.Keeps secrets hidden content later :=
  fun name value found => (keeps name value found).mono grown

/-- A fresh cell may be hidden: nothing refers to it yet. -/
theorem hide (keeps : env.Keeps secrets hidden content count) :
    env.Keeps secrets (count :: hidden) content count :=
  fun name value found => (keeps name value found).hide

/-- Names that are allowed may be bound. -/
theorem append (each : ∀ entry ∈ names, secrets.Allows hidden content count entry.1 entry.2)
    (keeps : env.Keeps secrets hidden content count) :
    Keeps secrets hidden content count (names ++ env) := by
  intro name value found
  rw [List.lookup_append] at found
  cases here : names.lookup name with
  | none =>
      rw [here, Option.none_or] at found
      exact keeps name value found
  | some own =>
      rw [here, Option.some_or] at found
      cases found
      obtain ⟨front, back, rfl, -⟩ := List.lookup_eq_some_iff.1 here
      exact each (name, value) (by simp)

/-- Where nothing is kept, the names in scope stand for public values. -/
theorem none_iff : env.Keeps .none hidden content count ↔
    ∀ name value, env.lookup name = some value → value.Public hidden count :=
  ⟨fun keeps name value found => (keeps name value found).others id,
    fun each name value found => ⟨nofun, nofun, fun _ => each name value found⟩⟩

end Env.Keeps

end Keeps

/-- The names that a pattern binds stand for parts of the value. -/
theorem Pattern.mem_bound {pattern : Pattern} {value : Value} {store after : Store} {names : Env}
    (bound : pattern.bound value store = .ok (names, after)) : after = store ∧
      ∀ entry ∈ names, entry.1 ∈ pattern.names ∧ entry.2.cells ⊆ value.cells := by
  cases pattern with
  | var name =>
      cases bound
      exact ⟨rfl, List.forall_mem_singleton.2 ⟨List.mem_singleton_self _, List.Subset.refl _⟩⟩
  | tuple listed =>
      cases value with
      | tuple components =>
          unfold Pattern.bound at bound
          dsimp only at bound
          split at bound
          · cases bound
            refine ⟨rfl, fun entry member => ?_⟩
            obtain ⟨⟨shown, component⟩, among, same⟩ := List.mem_filterMap.1 member
            obtain ⟨name, isName, rfl⟩ := Option.map_eq_some_iff.1 same
            obtain ⟨isListed, isComponent⟩ := List.of_mem_zip among
            exact ⟨List.mem_filterMap.2 ⟨shown, isListed, isName⟩, fun address inside =>
              Value.mem_cellsOfAll_iff.2 ⟨component, isComponent, inside⟩⟩
          · cases bound
      | _ => cases bound

/-! ## Runs of confined code -/

/-- The functions that are called keep secrets: every function if it is passed public values, and
those that are in the secret if their parameters stand for what they are to stand for. -/
structure Secrets.KeptBy (secrets : Secrets) (content : Value)
    (call : String → List Value → Eval Value) (world : World) : Prop where
  honest : world.Honest
  called : ∀ hidden count function args, (∀ arg ∈ args, Value.Public hidden count arg) →
    (call function args).Discreet hidden content count (Value.Public hidden)
  shared : ∀ hidden count function params args, secrets.shares function params →
    Env.Keeps secrets hidden content count (params.zip args) →
      (call function args).Discreet hidden content count (Value.Public hidden)

section Runs

variable {secrets : Secrets} {hidden : List Nat} {content : Value} {count : Nat} {world : World}
  {call : String → List Value → Eval Value} {env : Env} {pattern : Pattern}

/-- An answer that is expected is there, and nothing else happens. -/
theorem expect_eq_ok_iff {α : Type} {found : Option α} {store after : Store} {answer : α} :
    Eval.expect found store = .ok (answer, after) ↔ found = some answer ∧ store = after := by
  cases found with
  | none => exact iff_of_false nofun nofun
  | some value => simp [Eval.expect]

/-- Parameters that names are passed for under their own names stand for what the names do. -/
theorem lookup_zip_of_evalAll {params : List String} {args : List Value} {store after : Store}
    (passed : Expr.evalAll call world env (params.map .var) store = .ok (args, after)) :
    after = store ∧ args.length = params.length ∧
      ∀ name, (params.zip args).lookup name = if name ∈ params then env.lookup name else none := by
  induction params generalizing args store with
  | nil =>
      cases passed
      exact ⟨rfl, rfl, fun _ => rfl⟩
  | cons first rest ih =>
      obtain ⟨value, _, here, passed⟩ := stepped_bind_iff.1 passed
      obtain ⟨others, _, later, ⟨⟩⟩ := stepped_bind_iff.1 passed
      rw [Expr.eval] at here
      cases named : env.lookup first with
      | none =>
          rw [named] at here
          cases here
      | some found =>
          rw [named] at here
          cases here
          obtain ⟨rfl, lengths, each⟩ := ih later
          refine ⟨rfl, congrArg (· + 1) lengths, fun name => ?_⟩
          rw [List.zip_cons_cons]
          by_cases isFirst : name = first
          · rw [isFirst, List.lookup_cons_self, if_pos List.mem_cons_self, named]
          · rw [lookup_cons_of_ne isFirst, each]
            simp [isFirst]

/-- Parameters may stand for what names are passed for them that stand for it. -/
theorem Env.Keeps.passed {params : List String} {args : List Value} {store after : Store}
    (keeps : env.Keeps secrets hidden content count)
    (passed : Expr.evalAll call world env (params.map .var) store = .ok (args, after)) :
    after = store ∧ Env.Keeps secrets hidden content count (params.zip args) := by
  obtain ⟨rfl, -, same⟩ := lookup_zip_of_evalAll passed
  refine ⟨rfl, fun name value found => ?_⟩
  rw [same] at found
  split at found
  · exact keeps name value found
  · cases found

mutual

/-- Evaluating an expression that keeps secrets gives a public value. -/
theorem Expr.discreet_eval (kept : secrets.KeptBy content call world) :
    ∀ expr : Expr, expr.Confined secrets → ∀ {count : Nat},
      env.Keeps secrets hidden content count →
        (expr.eval call world env).Discreet hidden content count (Value.Public hidden)
  | .var name, confined, _, keeps =>
      .expect fun value found _ grown => ((keeps name value found).others confined).mono grown
  | .int _, _, _, _ | .bool _, _, _, _ | .null, _, _, _ | .unit, _, _, _ =>
      .pure fun _ _ => .of_none rfl
  | .nondet, _, _, _ => .next kept.honest
  | .deref cell, .inl ⟨name, isName⟩, _, _ => by
      subst isName
      exact .bind (.expect fun _ _ _ _ => trivial) fun _ _ _ (_ : True) => .contentOf
  | .deref cell, .inr confined, _, keeps =>
      (Expr.discreet_eval kept cell confined keeps).bind fun _ _ _ _ => .contentOf
  | .mkRef inner, confined, _, keeps =>
      (Expr.discreet_eval kept inner confined keeps).bind fun _ _ _ isPublic => .newCell isPublic
  | .mkArray size, confined, _, keeps =>
      (Expr.discreet_eval kept size confined keeps).bind fun _ _ _ _ => .newArray kept.honest
  | .index base position, confined, _, keeps =>
      (Expr.discreet_eval kept base confined.1 keeps).bind fun _ _ grown _ =>
        (Expr.discreet_eval kept position confined.2 (keeps.mono grown)).bind fun _ _ _ _ =>
          Eval.Discreet.elementsOf.bind fun _ _ _ each =>
            Eval.Discreet.positionIn.bind fun _ _ further _ =>
              .expect fun value found _ more =>
                (each value (List.mem_of_getElem? found)).mono (Nat.le_trans further more)
  | .length base, confined, _, keeps =>
      (Expr.discreet_eval kept base confined keeps).bind fun _ _ _ _ =>
        Eval.Discreet.elementsOf.bind fun _ _ _ _ => .pure fun _ _ => .of_none rfl
  | .tuple components, confined, _, keeps =>
      (Expr.discreet_evalAll kept components confined keeps).bind fun _ _ _ each =>
        .pure fun _ grown => Value.Public.tuple_iff.2 fun value member =>
          (each value member).mono grown
  | .proj base _, confined, _, keeps =>
      (Expr.discreet_eval kept base confined keeps).bind fun _ _ _ isPublic => .componentOf isPublic
  | .binary op left right, confined, _, keeps =>
      (Expr.discreet_eval kept left confined.1 keeps).bind fun one _ grown isOne =>
        (Expr.discreet_eval kept right confined.2 (keeps.mono grown)).bind
          fun other _ further isOther => .expect fun value found _ more =>
            .of_subset (kept.honest.binary op one other value found) (List.forall_mem_append.2
              ⟨isOne.mono (Nat.le_trans further more), isOther.mono more⟩)
  | .unary op operand, confined, _, keeps =>
      (Expr.discreet_eval kept operand confined keeps).bind fun one _ _ isOne =>
        .expect fun value found _ more =>
          .of_subset (kept.honest.unary op one value found) (isOne.mono more)
  | .call function _, .inl ⟨params, shares, isArgs⟩, _, keeps => by
      subst isArgs
      intro store answer after hides known evaluates
      obtain ⟨args, between, passed, answers⟩ := stepped_bind_iff.1 evaluates
      obtain ⟨rfl, keepsParams⟩ := keeps.passed passed
      exact kept.shared _ _ function params args shares keepsParams between answer after hides known
        answers
  | .call function args, .inr confined, _, keeps =>
      (Expr.discreet_evalAll kept args confined keeps).bind fun values _ _ each =>
        kept.called _ _ function values each

/-- Confined expressions evaluate to public values, one after the other. -/
theorem Expr.discreet_evalAll (kept : secrets.KeptBy content call world) :
    ∀ exprs : List Expr, ConfinedAll secrets exprs → ∀ {count : Nat},
      env.Keeps secrets hidden content count →
        (Expr.evalAll call world env exprs).Discreet hidden content count fun later values =>
          ∀ value ∈ values, value.Public hidden later
  | [], _, _, _ => .pure fun _ _ => nofun
  | first :: rest, confined, _, keeps =>
      (Expr.discreet_eval kept first confined.1 keeps).bind fun _ _ grown isFirst =>
        (Expr.discreet_evalAll kept rest confined.2 (keeps.mono grown)).bind
          fun _ _ further each => .pure fun _ more => List.forall_mem_cons.2
            ⟨isFirst.mono (Nat.le_trans further more), fun value member =>
              (each value member).mono more⟩

end

/-- A binding that keeps secrets brings names in scope that stand for what they are to stand for. A
name of a hidden cell stands for a new one. -/
theorem Secrets.Binds.keeps {value : Expr} (binds : secrets.Binds pattern value)
    (kept : secrets.KeptBy content call world) {store between after : Store}
    (keeps : env.Keeps secrets hidden content store.cells.length)
    (hides : store.Hides hidden content) {result : Value}
    (evaluates : value.eval call world env store = .ok (result, between)) {names : Env}
    (bound : pattern.bound result between = .ok (names, after)) :
    ∃ more, hidden ⊆ more ∧ after.Hides more content ∧
      store.cells.length ≤ after.cells.length ∧
      Env.Keeps secrets more content after.cells.length (names ++ env) := by
  cases binds with
  | others inner free =>
      obtain ⟨hidesAfter, grown, isPublic⟩ :=
        Expr.discreet_eval kept value inner keeps store result between hides (Nat.le_refl _)
          evaluates
      obtain ⟨rfl, parts⟩ := Pattern.mem_bound bound
      refine ⟨hidden, List.Subset.refl _, hidesAfter, grown, .append (fun entry member => ?_)
        (keeps.mono grown)⟩
      obtain ⟨named, among⟩ := parts entry member
      exact ⟨fun isCell => absurd isCell (free _ named).1,
        fun isContent => absurd isContent (free _ named).2, fun _ => .of_subset among isPublic⟩
  | @cell name copied isCell isContent =>
      obtain ⟨found, _, named, made⟩ := stepped_bind_iff.1 evaluates
      obtain ⟨isFound, rfl⟩ := expect_eq_ok_iff.1 named
      have copy := keeps copied found isFound
      obtain rfl := copy.content isContent
      cases made
      cases bound
      have grown : store.cells.length ≤ (store.cells ++ [found]).length := by simp
      refine ⟨_, List.subset_cons_self _ _,
        hides.hide (copy.others (secrets.apart copied isContent)), grown,
        .append (List.forall_mem_singleton.2 ?_) (keeps.hide.mono grown)⟩
      exact ⟨fun _ => ⟨_, List.mem_cons_self, rfl⟩,
        fun isContent => absurd isCell (secrets.apart name isContent),
        fun isOther => absurd isCell isOther⟩
  | @content name copied named isContent =>
      obtain ⟨isFound, rfl⟩ := expect_eq_ok_iff.1 evaluates
      have copy := keeps copied result isFound
      cases bound
      refine ⟨hidden, List.Subset.refl _, hides, Nat.le_refl _,
        .append (List.forall_mem_singleton.2 ?_) keeps⟩
      exact ⟨fun isCell => absurd isCell (secrets.apart name named),
        fun _ => copy.content isContent, fun _ => copy.others (secrets.apart copied isContent)⟩

/-- What comes out of a statement is public. -/
def Completion.Public (hidden : List Nat) (count : Nat) : Completion → Prop
  | .falls => True
  | .returns value => value.Public hidden count

/-- What is public for many hidden cells is public for some of them. -/
theorem Completion.Public.fewer {completion : Completion} {more : List Nat}
    (isPublic : completion.Public more count) (among : hidden ⊆ more) :
    completion.Public hidden count := by
  cases completion with
  | falls => trivial
  | returns value => exact Value.Public.fewer isPublic among

mutual

/-- A statement that keeps secrets leaves hidden cells as they are, and returns public values. -/
theorem Stmt.discreet_exec (kept : secrets.KeptBy content call world) : ∀ stmt : Stmt,
    AllConfined secrets [stmt] → ∀ {hidden : List Nat} {count : Nat} {env : Env},
      env.Keeps secrets hidden content count →
        (stmt.exec call world env).Discreet hidden content count (Completion.Public hidden)
  | .bind pattern value body, confined, _, _, _, keeps => by
      obtain ⟨binds, inside⟩ := AllConfined.bind_iff.1 confined
      intro store answer after hides known ran
      obtain ⟨result, between, evaluates, ran⟩ := stepped_bind_iff.1 ran
      obtain ⟨names, middle, bound, ran⟩ := stepped_bind_iff.1 ran
      -- In the body one more cell may be hidden.
      obtain ⟨more, among, hidesMore, grown, keepsMore⟩ :=
        binds.keeps kept (keeps.mono known) hides evaluates bound
      obtain ⟨hidesAfter, further, isPublic⟩ := Stmt.discreet_execAll kept body inside keepsMore
        middle answer after hidesMore (Nat.le_refl _) ran
      exact ⟨hidesAfter.fewer among, Nat.le_trans grown further, isPublic.fewer among⟩
  | .assign target value, confined, _, _, _, keeps => by
      obtain ⟨isOther, inner⟩ := confined.head
      refine (Expr.discreet_eval kept value inner keeps).bind fun result _ grown isResult => ?_
      refine (Eval.Discreet.expect fun cell found _ further =>
        (((keeps target cell found).others isOther).mono (Nat.le_trans grown further))).bind
          fun cell _ further isCell => ?_
      exact (Eval.Discreet.write isCell (isResult.mono further)).bind fun _ _ _ _ =>
        .pure fun _ _ => trivial
  | .arrayStore array position value, confined, _, _, _, keeps => by
      obtain ⟨ofArray, ofPosition, ofValue⟩ := confined.head
      refine (Expr.discreet_eval kept array ofArray keeps).bind fun base _ grown _ => ?_
      refine (Expr.discreet_eval kept position ofPosition (keeps.mono grown)).bind
        fun index _ further _ => ?_
      refine (Expr.discreet_eval kept value ofValue (keeps.mono (Nat.le_trans grown further))).bind
        fun result _ _ isResult => ?_
      exact (Eval.Discreet.writeAt isResult).bind fun _ _ _ _ => .pure fun _ _ => trivial
  | .cond condition thenBranch elseBranch, confined, _, _, _, keeps => by
      obtain ⟨inner, ofThen, ofElse⟩ := AllConfined.cond_iff.1 confined
      refine (Expr.discreet_eval kept condition inner keeps).bind fun test _ grown _ => ?_
      split
      · exact Stmt.discreet_execAll kept thenBranch ofThen (keeps.mono grown)
      · exact Stmt.discreet_execAll kept elseBranch ofElse (keeps.mono grown)
      · exact .throw
  | .ret value, confined, _, _, _, keeps =>
      (Expr.discreet_eval kept value confined.head keeps).bind fun _ _ _ isResult =>
        .pure fun _ grown => isResult.mono grown
  | .assert condition, confined, _, _, _, keeps => by
      refine (Expr.discreet_eval kept condition confined.head keeps).bind fun test _ _ _ => ?_
      split
      · exact .pure fun _ _ => trivial
      · exact .throw
      · exact .throw
  | .aliased _ _, _, _, _, _, _ => .pure fun _ _ => trivial
  | .expr value, confined, _, _, _, keeps =>
      (Expr.discreet_eval kept value confined.head keeps).bind fun _ _ _ _ =>
        .pure fun _ _ => trivial

/-- Confined statements keep hidden cells as they are, one after the other. -/
theorem Stmt.discreet_execAll (kept : secrets.KeptBy content call world) : ∀ stmts : List Stmt,
    AllConfined secrets stmts → ∀ {hidden : List Nat} {count : Nat} {env : Env},
      env.Keeps secrets hidden content count →
        (Stmt.execAll call world env stmts).Discreet hidden content count (Completion.Public hidden)
  | [], _, _, _, _, _ => .pure fun _ _ => trivial
  | stmt :: rest, confined, _, _, _, keeps => by
      obtain ⟨here, later⟩ := AllConfined.cons_iff.1 confined
      refine (Stmt.discreet_exec kept stmt here keeps).bind fun completion _ grown isPublic => ?_
      cases completion with
      | falls => exact Stmt.discreet_execAll kept rest later (keeps.mono grown)
      | returns value => exact .pure fun _ further => Value.Public.mono isPublic further

end

end Runs

/-! ## Calls -/

mutual

/-- Every expression is confined where nothing is secret. -/
theorem Expr.confined_none : ∀ expr : Expr, expr.Confined .none
  | .var _ => id
  | .int _ | .bool _ | .null | .unit | .nondet => trivial
  | .deref cell => .inr (Expr.confined_none cell)
  | .mkRef inner | .mkArray inner | .length inner | .proj inner _ | .unary _ inner =>
      Expr.confined_none inner
  | .index left right | .binary _ left right =>
      ⟨Expr.confined_none left, Expr.confined_none right⟩
  | .tuple components => Expr.confinedAll_none components
  | .call _ args => .inr (Expr.confinedAll_none args)

theorem Expr.confinedAll_none : ∀ exprs : List Expr, ConfinedAll .none exprs
  | [] => trivial
  | first :: rest => ⟨Expr.confined_none first, Expr.confinedAll_none rest⟩

end

/-- Every statement is confined where nothing is secret. -/
theorem Stmt.confined_none (stmt : Stmt) : stmt.Confined .none := by
  cases stmt with
  | bind pattern value body => exact .others value.confined_none fun _ _ => ⟨id, id⟩
  | assign target value => exact ⟨id, value.confined_none⟩
  | arrayStore array position value =>
      exact ⟨array.confined_none, position.confined_none, value.confined_none⟩
  | cond value | ret value | assert value | expr value => exact value.confined_none
  | aliased => trivial

section Calls

variable {program : Program} {world : World} {secrets : Secrets} {content : Value}

/-- A function answers what its body returns. -/
theorem Program.discreet_call_of_body {hidden : List Nat} {count depth : Nat} {name : String}
    {function : Function} {args : List Value} (found : program.function? name = some function)
    (body : (Stmt.execAll (program.call world depth) world (function.params.zip args)
      function.body).Discreet hidden content count (Completion.Public hidden)) :
    (program.call world (depth + 1) name args).Discreet hidden content count
      (Value.Public hidden) := by
  rw [call, found, expect_some, pure_bind]
  split
  · refine body.bind fun completion _ grown isPublic => ?_
    cases completion with
    | returns value => exact .pure fun _ further => Value.Public.mono isPublic further
    | falls => exact .throw
  · exact .throw

/-- A function that is passed public values leaves hidden cells as they are, and answers a public
value. -/
theorem Program.discreet_call (honest : world.Honest) {depth : Nat} {hidden : List Nat}
    {count : Nat} {name : String} {args : List Value}
    (shown : ∀ arg ∈ args, Value.Public hidden count arg) :
    (program.call world depth name args).Discreet hidden content count (Value.Public hidden) := by
  induction depth generalizing hidden count name args with
  | zero => exact .throw
  | succ depth ih =>
      cases found : program.function? name with
      | none =>
          rw [call, found]
          exact nofun
      | some function =>
          have kept : Secrets.none.KeptBy content (program.call world depth) world :=
            ⟨honest, fun _ _ _ _ => ih, nofun⟩
          refine discreet_call_of_body found (Stmt.discreet_execAll kept function.body
            (fun stmt _ => stmt.confined_none) (Env.Keeps.none_iff.2 fun param value isArg => ?_))
          obtain ⟨front, back, same, -⟩ := List.lookup_eq_some_iff.1 isArg
          have member : (param, value) ∈ function.params.zip args := by rw [same]; simp
          exact shown value (List.of_mem_zip member).2

/-- The functions of a program that are in the secret keep it. -/
def Program.Keeps (program : Program) (secrets : Secrets) : Prop :=
  ∀ name params, secrets.shares name params → ∃ function,
    program.function? name = some function ∧ function.params = params ∧
      Stmt.AllConfined secrets function.body

/-- At every depth of calls the functions of a program keep secrets, if those that are in the
secret do. -/
theorem Program.Keeps.keptBy (keeps : program.Keeps secrets) (honest : world.Honest) (depth : Nat) :
    secrets.KeptBy content (program.call world depth) world := by
  refine ⟨honest, fun _ _ _ _ => discreet_call honest, ?_⟩
  induction depth with
  | zero => exact fun _ _ _ _ _ _ _ => .throw
  | succ depth ih =>
      intro hidden count name params args shares keepsParams
      obtain ⟨function, found, rfl, confined⟩ := keeps name params shares
      have kept : secrets.KeptBy content (program.call world depth) world :=
        ⟨honest, fun _ _ _ _ => discreet_call honest, ih⟩
      exact discreet_call_of_body found (Stmt.discreet_execAll kept function.body confined
        keepsParams)

end Calls

end GotoFree.Target
