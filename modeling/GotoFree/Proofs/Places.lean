import GotoFree.Proofs.ConfinedCode
import GotoFree.Proofs.LoopFunctions
import GotoFree.Proofs.Shadowing
import Mathlib.Logic.Relation

/-!
# Where a run comes to

A run goes from place to place: behind a statement, into the body of a binding or a branch of a
conditional, or into a function that is called with its own parameters, as the functions of loops
are (`Program.Moves`). On the way the names that no binding hides go on standing for what they stood
for (`Place.Knows.moves`), and code that keeps secrets goes on keeping them
(`Place.Guards.moves`).
-/

namespace GotoFree.Target

/-- A place that a run has come to: what is left of a block there, with what the names in scope
stand for, what the run has made so far, and the depth of calls that it may still go to. -/
structure Place where
  depth : Nat
  rest : List Stmt
  env : Env
  store : Store

/-- The start of a function that is called with some arguments. -/
def Function.start (function : Function) (depth : Nat) (args : List Value) (store : Store) :
    Place :=
  ⟨depth, function.body, function.params.zip args, store⟩

/-- A run goes from one place to another one. Of the functions that it calls on the way, it is
followed into those of a kind that are called with their own parameters. -/
inductive Program.Moves (program : Program) (world : World) (inner : Function → Prop) :
    Place → Place → Prop where
  | behind {depth : Nat} {stmt : Stmt} {rest : List Stmt} {env : Env} {store after : Store}
      (ran : stmt.exec (program.call world depth) world env store = .ok (.falls, after)) :
      Moves program world inner ⟨depth, stmt :: rest, env, store⟩ ⟨depth, rest, env, after⟩
  | bound {depth : Nat} {pattern : Pattern} {value : Expr} {body rest : List Stmt}
      {env names : Env} {store between after : Store} {result : Value}
      (evaluates : value.eval (program.call world depth) world env store = .ok (result, between))
      (binds : pattern.bound result between = .ok (names, after)) :
      Moves program world inner ⟨depth, .bind pattern value body :: rest, env, store⟩
        ⟨depth, body, names ++ env, after⟩
  | taken {depth : Nat} {condition : Expr} {thenBranch elseBranch rest : List Stmt} {env : Env}
      {store after : Store} (holds : condition.eval (program.call world depth) world env store =
        .ok (.bool true, after)) :
      Moves program world inner ⟨depth, .cond condition thenBranch elseBranch :: rest, env, store⟩
        ⟨depth, thenBranch, env, after⟩
  | notTaken {depth : Nat} {condition : Expr} {thenBranch elseBranch rest : List Stmt} {env : Env}
      {store after : Store} (fails : condition.eval (program.call world depth) world env store =
        .ok (.bool false, after)) :
      Moves program world inner ⟨depth, .cond condition thenBranch elseBranch :: rest, env, store⟩
        ⟨depth, elseBranch, env, after⟩
  | into {depth : Nat} {stmt : Stmt} {rest : List Stmt} {env : Env} {store after : Store}
      {function : Function} {args : List Value} (calls : stmt.operands = [function.again])
      (isInner : inner function) (found : program.function? function.name = some function)
      (passed : Expr.evalAll (program.call world (depth + 1)) world env
        (function.params.map .var) store = .ok (args, after)) :
      Moves program world inner ⟨depth + 1, stmt :: rest, env, store⟩
        (function.start depth args after)

/-- A run comes from one place to another one. -/
abbrev Program.Comes (program : Program) (world : World) (inner : Function → Prop) :
    Place → Place → Prop :=
  Relation.ReflTransGen (program.Moves world inner)

section Moves

variable {program : Program} {world : World} {inner : Function → Prop} {before place : Place}

/-- Where control falls out of a script, a run comes to what stands behind it. -/
theorem Script.comes_of_exec {script back : Script} {depth : Nat} {env later : Env}
    {store after : Store}
    (ran : script.exec (program.call world depth) world env store = .ok (.falls later, after)) :
    program.Comes world inner ⟨depth, (script ++ back).stmts, env, store⟩
      ⟨depth, back.stmts, later, after⟩ := by
  induction script generalizing env store with
  | nil =>
      cases ran
      exact .refl
  | cons step rest ih =>
      cases step with
      | stmt stmt =>
          obtain ⟨completion, between, here, ran⟩ := stepped_bind_iff.1 ran
          cases completion with
          | falls => exact (ih ran).head (.behind here)
          | returns value => cases ran
      | bind pattern value =>
          obtain ⟨result, between, evaluates, ran⟩ := stepped_bind_iff.1 ran
          obtain ⟨names, middle, bound, ran⟩ := stepped_bind_iff.1 ran
          exact (ih ran).head (.bound evaluates bound)

/-! ## Names that stand for the same -/

/-- Some names stand for what they are given to stand for, and no binding in what is left hides
them. -/
structure Place.Knows (place : Place) (names : List String) (given : String → Option Value) :
    Prop where
  shown : ∃ known sight, names ⊆ sight ∧ ∀ stmt ∈ place.rest, stmt.Unshadowed known sight
  same : ∀ name ∈ names, place.env.lookup name = given name

/-- A function has some names among its parameters, and no binding in it hides a name. -/
def Function.Knows (function : Function) (names : List String) : Prop :=
  names ⊆ function.params ∧ ∃ known, function.Unshadowed known

variable {names : List String} {given : String → Option Value}

/-- Names that are not hidden stand for the same at the next place. -/
theorem Place.Knows.moves (each : ∀ function, inner function → function.Knows names)
    (moves : program.Moves world inner before place) (knows : before.Knows names given) :
    place.Knows names given := by
  obtain ⟨⟨known, sight, among, unshadowed⟩, same⟩ := knows
  cases moves with
  | behind => exact ⟨⟨known, sight, among, (List.forall_mem_cons.1 unshadowed).2⟩, same⟩
  | bound evaluates binds =>
      cases (List.forall_mem_cons.1 unshadowed).1 with
      | bind clear inside =>
          have free := (List.nodup_append'.1 clear.distinct).2.2
          refine ⟨⟨known, _, fun name member => List.mem_append_right _ (among member), inside⟩,
            fun name member => ?_⟩
          rw [← same name member, lookup_append_of_notMem]
          intro bound
          obtain ⟨entry, isEntry, rfl⟩ := List.mem_map.1 bound
          exact free ((Pattern.mem_bound binds).2 entry isEntry).1 (among member)
  | taken | notTaken =>
      cases (List.forall_mem_cons.1 unshadowed).1 with
      | cond ofThen ofElse => exact ⟨⟨known, sight, among, by assumption⟩, same⟩
  | into calls isInner found passed =>
      obtain ⟨params, known, unshadowed⟩ := each _ isInner
      refine ⟨⟨known, _, params, unshadowed.body⟩, fun name member => ?_⟩
      obtain ⟨-, -, lookup⟩ := lookup_zip_of_evalAll passed
      rw [← same name member, Function.start, lookup, if_pos (params member)]

/-- Names that are not hidden stand for the same wherever a run comes. -/
theorem Place.Knows.comes (knows : before.Knows names given)
    (each : ∀ function, inner function → function.Knows names)
    (comes : program.Comes world inner before place) : place.Knows names given := by
  induction comes with
  | refl => exact knows
  | tail _ moves ih => exact ih.moves each moves

/-! ## Secrets that are kept -/

/-- At a place secrets are kept: in what is left, by the names in scope, and in the store. -/
structure Place.Guards (place : Place) (secrets : Secrets) (content : Value)
    (hidden : List Nat) : Prop where
  confined : Stmt.AllConfined secrets place.rest
  keeps : place.env.Keeps secrets hidden content place.store.cells.length
  hides : place.store.Hides hidden content

variable {secrets : Secrets} {content : Value} {hidden : List Nat}

/-- Secrets that are kept at a place are kept at the next one, where more cells may be hidden. -/
theorem Place.Guards.moves (guards : before.Guards secrets content hidden)
    (honest : world.Honest) (keeps : program.Keeps secrets)
    (each : ∀ function, inner function → secrets.shares function.name function.params)
    (moves : program.Moves world inner before place) :
    ∃ more, place.Guards secrets content more := by
  obtain ⟨confined, keepsEnv, hides⟩ := guards
  have kept (depth : Nat) : secrets.KeptBy content (program.call world depth) world :=
    keeps.keptBy honest depth
  cases moves with
  | behind ran =>
      obtain ⟨here, later⟩ := Stmt.AllConfined.cons_iff.1 confined
      obtain ⟨hidesAfter, grown, -⟩ :=
        Stmt.discreet_exec (kept _) _ here keepsEnv _ _ _ hides (Nat.le_refl _) ran
      exact ⟨hidden, later, keepsEnv.mono grown, hidesAfter⟩
  | bound evaluates binds =>
      obtain ⟨here, inside⟩ := Stmt.AllConfined.bind_iff.1 (Stmt.AllConfined.cons_iff.1 confined).1
      obtain ⟨more, -, hidesMore, -, keepsMore⟩ :=
        here.keeps (kept _) keepsEnv hides evaluates binds
      exact ⟨more, inside, keepsMore, hidesMore⟩
  | taken holds =>
      obtain ⟨test, ofThen, -⟩ :=
        Stmt.AllConfined.cond_iff.1 (Stmt.AllConfined.cons_iff.1 confined).1
      obtain ⟨hidesAfter, grown, -⟩ :=
        Expr.discreet_eval (kept _) _ test keepsEnv _ _ _ hides (Nat.le_refl _) holds
      exact ⟨hidden, ofThen, keepsEnv.mono grown, hidesAfter⟩
  | notTaken fails =>
      obtain ⟨test, -, ofElse⟩ :=
        Stmt.AllConfined.cond_iff.1 (Stmt.AllConfined.cons_iff.1 confined).1
      obtain ⟨hidesAfter, grown, -⟩ :=
        Expr.discreet_eval (kept _) _ test keepsEnv _ _ _ hides (Nat.le_refl _) fails
      exact ⟨hidden, ofElse, keepsEnv.mono grown, hidesAfter⟩
  | into calls isInner found passed =>
      obtain ⟨other, same, -, ofBody⟩ := keeps _ _ (each _ isInner)
      cases found.symm.trans same
      obtain ⟨rfl, keepsParams⟩ := keepsEnv.passed passed
      exact ⟨hidden, ofBody, keepsParams, hides⟩

/-- Secrets are kept wherever a run comes. -/
theorem Place.Guards.comes (guards : before.Guards secrets content hidden)
    (honest : world.Honest) (keeps : program.Keeps secrets)
    (each : ∀ function, inner function → secrets.shares function.name function.params)
    (comes : program.Comes world inner before place) :
    ∃ more, place.Guards secrets content more := by
  induction comes with
  | refl => exact ⟨hidden, guards⟩
  | tail _ moves ih =>
      obtain ⟨more, guards⟩ := ih
      exact guards.moves honest keeps each moves

end Moves

end GotoFree.Target
