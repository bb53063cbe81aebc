import GotoFree.Proofs.ScopedBlocks
import GotoFree.Proofs.Waiting

/-!
# Scoped trees

The code of a marked tree leads from scope to scope (`Job.gives_continues_tree`). What a nested part
binds ends with the part, so the scope after it is that before it; the function of a loop has the
names in sight at its call for its parameters.
-/

namespace GotoFree

open LoopForest
open Target (Kinds Script Signature Stmt)

namespace Job

variable {job : Job} {scope after : Scope} {later : Agenda} {made : List Target.Function}
  {signatures : List Signature} {names : List String}

/-- Steps lead from a scope to another one. -/
abbrev Leads (job : Job) (later : Agenda) (scope : Scope) (answer : Script × Scope)
    (made : List Target.Function) : Prop :=
  job.Continues later scope answer.2 made fun signatures =>
    job.Carries signatures scope answer.2 answer.1

/-- Statements are scoped, with the functions that are made for them. -/
def Nests (job : Job) (later : Agenda) (scope : Scope) (stmts : List Stmt)
    (made : List Target.Function) : Prop :=
  job.Promises later scope.loop made fun signatures =>
    ∀ names, job.loopParams scope ⊆ names → ∀ stmt ∈ stmts, job.Admits signatures names stmt

/-- Code that leads on may stand in a block of its own. -/
theorem Leads.nests {answer : Script × Scope} (leads : job.Leads later scope answer made) :
    job.Nests later scope answer.1.stmts made :=
  leads.promises.imp fun _ _ carries _ shown => carries.stmts shown

/-- Statements in a block of their own lead on. -/
theorem Nests.leads {stmts : List Stmt} (planned : job.Planned scope)
    (nests : job.Nests later scope stmts made) :
    job.Leads later scope (Script.ofStmts stmts, scope) made :=
  ⟨planned, rfl, nests.imp fun _ _ admits => .ofStmts admits⟩

/-! ## Parts -/

/-- A jump is scoped where its loop is. -/
theorem gives_jump {coord : Coord} :
    Lower.Gives (·.Within job.setting.program later none) (job.jump scope coord)
      fun steps made => job.Planned scope → job.Leads later scope (steps, scope) made := by
  refine Lower.Gives.imp (quiet_jump.promises fun planned => yields_jump planned)
    fun steps made promises planned => ?_
  exact ⟨planned, rfl, promises planned⟩

/-- A block that does not branch is lowered to scoped code. -/
theorem gives_leads_jump (fair : job.Fair) {label : Label} {coord : Coord} :
    Lower.Gives (·.Within job.setting.program later none) (job.tree scope (.jump label coord))
      fun answer made => job.Planned scope → job.Leads later scope answer made := by
  rw [Job.tree]
  refine (gives_continues_block fair).bind fun body => ?_
  split
  · refine .pure fun made continues planned => ?_
    rw [List.append_nil]
    exact (continues planned).imp fun _ _ runs => runs.carries
  · refine gives_jump.bind fun steps => .pure fun more jumps made continues planned => ?_
    rw [List.append_nil]
    exact ((continues planned).append jumps).imp fun _ _ both => both.1.carries.append both.2

/-- An arm is lowered to scoped statements, if its tree is. -/
theorem gives_nests_arm {arm : Arm}
    (nested : ∀ tree, arm = .nested tree →
      Lower.Gives (·.Within job.setting.program later none) (job.tree scope tree)
        fun answer made => job.Planned scope → job.Leads later scope answer made) :
    Lower.Gives (·.Within job.setting.program later none) (job.arm scope arm)
      fun stmts made => job.Planned scope → job.Nests later scope stmts made := by
  cases arm with
  | jump coord jumps =>
      rw [Job.arm]
      refine gives_jump.bind fun steps => .pure fun made leads planned => ?_
      rw [List.append_nil]
      exact (leads planned).nests
  | nested tree =>
      rw [Job.arm]
      refine (nested tree rfl).bind fun answer => .pure fun made leads planned => ?_
      rw [List.append_nil]
      exact (leads planned).nests

/-- A conditional is lowered to scoped code, if its arms are. -/
theorem gives_leads_conditional (fair : job.Fair) {label : Label} {taken notTaken : Arm}
    (takenGives : ∀ scope, Lower.Gives (·.Within job.setting.program later none)
      (job.arm scope taken) fun stmts made =>
        job.Planned scope → job.Nests later scope stmts made)
    (notTakenGives : ∀ scope, Lower.Gives (·.Within job.setting.program later none)
      (job.arm scope notTaken) fun stmts made =>
        job.Planned scope → job.Nests later scope stmts made) :
    Lower.Gives (·.Within job.setting.program later none)
      (job.tree scope (.conditional label taken notTaken))
      fun answer made => job.Planned scope → job.Leads later scope answer made := by
  rw [Job.tree]
  refine (gives_continues_block fair).bind fun body => ?_
  split
  · exact .reject
  · next test isTest =>
    refine (takenGives body.scope).bind fun thenBranch =>
      (notTakenGives body.scope).bind fun elseBranch => .pure ?_
    intro madeElse nestsElse madeThen nestsThen made continues planned
    rw [List.append_nil]
    have block := continues planned
    have branches := (nestsThen block.planned).append (nestsElse block.planned)
    refine (block.append fun isPlanned => ⟨isPlanned, rfl, branches⟩).imp ?_
    rintro signatures - ⟨runs, ofThen, ofElse⟩ names shown
    obtain ⟨fits, shownAfter⟩ := runs.carries names shown
    rw [Script.opened_append]
    refine ⟨Script.fits_append_iff.2 ⟨fits, .cond ?_ ?_ ?_, trivial⟩, shownAfter⟩
    · exact runs.condition names shown test isTest
    · exact ofThen _ shownAfter
    · exact ofElse _ shownAfter

/-- What an element with a gate binds ends with the element. -/
theorem gives_leads_elems {elems : List Tree}
    (gates : ∀ tree ∈ elems, ∀ coords, tree.notes.gateOn = some coords →
      job.hasControlCell = true)
    (trees : ∀ tree ∈ elems, ∀ scope,
      Lower.Gives (·.Within job.setting.program later none) (job.tree scope tree)
        fun answer made => job.Planned scope → job.Leads later scope answer made) :
    ∀ scope, Lower.Gives (·.Within job.setting.program later none) (job.elems scope elems)
      fun answer made => job.Planned scope → job.Leads later scope answer made := by
  induction elems with
  | nil => exact fun scope => .pure fun planned => ⟨planned, rfl, .nil fun _ _ => .nil⟩
  | cons tree rest ih =>
      have others := ih (fun other member => gates other (List.mem_cons_of_mem _ member))
        fun other member => trees other (List.mem_cons_of_mem _ member)
      intro scope
      unfold Job.elems
      split
      · next coords gate =>
        have test : Lower.Answers (·.Within job.setting.program later none)
            (GotoFree.Job.gate coords) (job.Tested scope) :=
          quiet_gate.yields (yields_gate scope (gates tree (by simp) coords gate))
        refine test.bind fun test => (trees tree (by simp) scope).bind fun answer =>
          (others scope).bind fun last => .pure ?_
        intro more follows made leads tested planned
        rw [List.append_nil]
        refine ⟨(follows planned).planned, (follows planned).loop,
          ((leads planned).nests.append (follows planned).promises).imp ?_⟩
        rintro signatures - ⟨admits, carries⟩
        refine Carries.append ?_ carries
        split
        · exact .nil
        · exact .stmt fun names shown =>
            .cond (tested signatures names shown) (admits names shown) (by simp)
      · refine (trees tree (by simp) scope).bind fun answer =>
          (others answer.2).bind fun last => .pure ?_
        intro more follows made leads planned
        rw [List.append_nil]
        exact ((leads planned).append follows).imp fun _ _ both => both.1.append both.2

/-- The alternatives of a merge are lowered to scoped statements, if their trees are. -/
theorem gives_nests_alternatives (has : job.hasControlCell = true) {merge : Label}
    {alternatives : List Tree}
    (trees : ∀ tree ∈ alternatives,
      Lower.Gives (·.Within job.setting.program later none) (job.tree scope tree)
        fun answer made => job.Planned scope → job.Leads later scope answer made) :
    Lower.Gives (·.Within job.setting.program later none)
      (job.alternatives scope merge alternatives)
      fun stmts made => job.Planned scope → job.Nests later scope stmts made := by
  induction alternatives with
  | nil =>
      exact .pure fun _ => .nil fun _ _ _ _ => List.forall_mem_singleton.2 (.assert .bool)
  | cons tree rest ih =>
      unfold alternatives
      have test : Lower.Answers (·.Within job.setting.program later none)
          (job.alternativeTest merge tree.head) (job.Tested scope) :=
        quiet_alternativeTest.yields (yields_alternativeTest scope has)
      refine test.bind fun test => (trees tree (by simp)).bind fun answer =>
        (ih fun other member => trees other (List.mem_cons_of_mem _ member)).bind fun others =>
          .pure ?_
      intro more follows made leads tested planned
      rw [List.append_nil]
      refine ((leads planned).nests.append (follows planned)).imp ?_
      rintro signatures - ⟨admits, admitsOthers⟩ names shown
      exact List.forall_mem_singleton.2
        (.cond (tested signatures names shown) (admits names shown) (admitsOthers names shown))

/-! ## Loops -/

/-- Inside a loop, the locals of the scope around it are planned. -/
theorem Planned.insideLoop {frame : LoopFrame} (planned : job.Planned scope)
    (params : frame.params ⊆ job.loopParams scope) : job.Planned (scope.insideLoop frame) :=
  ⟨planned.bound, planned.postponed, by rintro _ ⟨⟩; exact params⟩

/-- The body of a function is scoped as its steps are. -/
theorem admits_closed {steps : Script} (fits : job.Fits signatures names steps) :
    ∀ stmt ∈ job.closed after steps, job.Admits signatures names stmt := by
  unfold closed
  split
  · exact fits.stmts
  · have leaves : job.Fits signatures (Script.opened names steps)
        [Script.ret (job.emptyReturn after)] := ⟨.ret scoped_emptyReturn, trivial⟩
    exact (Script.fits_append_iff.2 ⟨fits, leaves⟩).stmts

/-- A value is returned if one of some coordinates was recorded last. -/
theorem yields_returnIf (scope : Scope) {coords : CoordSet} {value : Target.Expr}
    (recorded : ∀ coord ∈ coords, coord ∈ job.flags.recorded) :
    Lower.Yields (returnIf coords value) fun steps => ∀ signatures names,
      job.loopParams scope ⊆ names →
      ((∃ coord, coord ∈ coords) → value.Scoped signatures (job.kinds.of names)) →
        job.Fits signatures names steps ∧ Script.opened names steps = names := by
  unfold returnIf
  split
  · exact .pure fun _ _ _ _ => ⟨trivial, rfl⟩
  · next some =>
    obtain ⟨coord, member⟩ : ∃ coord, coord ∈ coords := by
      simpa [SortedSet.isEmpty_iff] using some
    have has := hasControlCell_of_recorded (recorded coord member)
    refine (yields_gate scope has).bind fun test tested => .pure ?_
    intro signatures names shown ofValue
    refine ⟨⟨.cond (tested signatures names shown) ?_ nofun, trivial⟩, rfl⟩
    exact List.forall_mem_singleton.2 (.ret (ofValue ⟨coord, member⟩))

/-- What runs the loop around another one again is scoped where that loop is. -/
theorem yields_recurseAfter (planned : job.Planned scope) {label : Label}
    (recorded : ∀ coord ∈ label.notes.recurseOn.getD .empty, coord ∈ job.flags.recorded) :
    Lower.Yields (job.recurseAfter scope label) fun steps => ∀ signatures,
      job.Knows later scope.loop signatures → job.Carries signatures scope scope steps := by
  unfold recurseAfter
  dsimp only
  split
  · exact .pure fun _ _ => .nil
  · split
    · next frame isLoop =>
      refine (yields_returnIf scope recorded).imp fun steps fits signatures knows => ?_
      intro names shown
      obtain ⟨fit, same⟩ := fits signatures names shown fun _ =>
        scoped_again (knows.loop frame isLoop)
          (List.Subset.trans (planned.frame frame isLoop) shown)
      rw [same]
      exact ⟨fit, shown⟩
    · exact .reject

/-- The value of a loop is returned only where the loop has one. -/
theorem yields_returnAfter (scope : Scope) {label : Label}
    (recorded : ∀ coord ∈ label.notes.returnOn.getD .empty, coord ∈ job.flags.recorded) :
    Lower.Yields (job.returnAfter scope label) fun steps => ∀ signatures names,
      job.loopParams scope ⊆ names →
      (label.jumps.returns.isEmpty = false → loopResult label ∈ names) →
        job.Fits signatures names steps ∧ Script.opened names steps = names := by
  unfold returnAfter
  refine (yields_returnIf scope fun coord member =>
    recorded coord (SortedSet.mem_filter.1 member).1).bind fun returning returns => ?_
  refine (yields_returnIf scope fun coord member =>
    recorded coord (SortedSet.mem_filter.1 member).1).bind fun leaving leaves => .pure ?_
  intro signatures names shown valued
  obtain ⟨first, same⟩ := returns signatures names shown fun some => by
    obtain ⟨coord, member⟩ := some
    refine .var (Kinds.lookup_of (valued ?_))
    rw [← Bool.not_eq_true, SortedSet.isEmpty_iff]
    exact fun empty => empty coord (by simpa using (SortedSet.mem_filter.1 member).2)
  obtain ⟨second, still⟩ := leaves signatures names shown fun _ => scoped_emptyReturn
  rw [Script.opened_append, same, still]
  exact ⟨Script.fits_append_iff.2 ⟨first, same.symm ▸ second⟩, rfl⟩

/-- A loop is lowered to scoped code, if its body is. -/
theorem gives_leads_loop (fair : job.Fair) {label : Label} {entries : SortedSet BlockId}
    {body : Tree} (valued : label.notes.valueLoop = some (!label.jumps.returns.isEmpty))
    (recursing : ∀ coord ∈ label.notes.recurseOn.getD .empty, coord ∈ job.flags.recorded)
    (returning : ∀ coord ∈ label.notes.returnOn.getD .empty, coord ∈ job.flags.recorded)
    (gives : Lower.Gives (·.Within job.setting.program later none)
      (job.tree (scope.insideLoop (job.loopFrame scope label)) body)
        fun answer made => job.Planned (scope.insideLoop (job.loopFrame scope label)) →
          job.Leads later (scope.insideLoop (job.loopFrame scope label)) answer made) :
    Lower.Gives (·.Within job.setting.program later none)
      (job.tree scope (.loop label entries body))
      fun answer made => job.Planned scope → job.Leads later scope answer made := by
  rw [Job.tree]
  refine gives.bind fun inner => Lower.gives_addHelper.bind fun _ => ?_
  have recurses : Lower.Answers (·.Within job.setting.program later none)
      (job.recurseAfter scope label) fun steps => job.Planned scope → ∀ signatures,
        job.Knows later scope.loop signatures → job.Carries signatures scope scope steps :=
    quiet_recurseAfter.under fun planned => yields_recurseAfter planned recursing
  refine recurses.bind fun recurse =>
    Lower.Answers.bind (quiet_returnAfter.yields (yields_returnAfter scope returning))
      fun leave => .pure ?_
  rintro leaves recurses _ rfl made leads planned
  rw [List.append_nil]
  have params : (job.loopFrame scope label).params ⊆ job.loopParams scope :=
    List.Subset.refl _
  have own : job.Promises later scope.loop
      (made ++ [⟨(job.loopFrame scope label).name, (job.loopFrame scope label).params,
        job.closed inner.2 inner.1⟩])
      fun signatures => job.signatureOf (job.loopFrame scope label) ∈ signatures :=
    (leads (planned.insideLoop params)).promises.snoc (.inr ⟨label.head, rfl⟩)
    (fun signatures knows member => ⟨knows.methods, by rintro _ ⟨⟩; exact member⟩)
    fun signatures knows carries =>
      ⟨rfl, by simp [signatureOf, Kinds.of, Function.comp_def],
        admits_closed (carries _ (List.Subset.refl _)).1⟩
  refine ⟨planned, rfl, own.imp fun signatures knows member => ?_⟩
  -- The value of the loop has a name if there is one.
  have runs : ∀ names, job.loopParams scope ⊆ names →
      job.Fits signatures names (runLoop (job.loopFrame scope label) label) ∧
        (label.jumps.returns.isEmpty = false → loopResult label ∈
          Script.opened names (runLoop (job.loopFrame scope label) label)) := by
    intro names shown
    have again := scoped_again member (List.Subset.trans params shown)
    have isValued : (job.loopFrame scope label).yieldsValue = !label.jumps.returns.isEmpty := by
      rw [loopFrame, valued, Option.getD_some]
    unfold runLoop
    split
    · refine ⟨Script.fits_bindName again ?_ ?_, fun _ => ?_⟩
      · intro inner same
        cases same
      · exact fair.kinds_stem (by decide) (by decide) (by decide)
      · exact List.mem_append_left _ (List.mem_singleton_self _)
    · next none =>
      refine ⟨⟨.expr again, trivial⟩, fun some => absurd ?_ none⟩
      rw [isValued, some]
      rfl
  intro names shown
  obtain ⟨fits, named⟩ := runs names shown
  obtain ⟨fitsRecurse, shownAfter⟩ :=
    recurses planned signatures knows _ (List.Subset.trans shown Script.subset_opened)
  obtain ⟨fitsLeave, same⟩ := leaves signatures _ shownAfter fun some =>
    Script.subset_opened (named some)
  rw [Script.opened_append, Script.opened_append, same]
  refine ⟨Script.fits_append_iff.2 ⟨Script.fits_append_iff.2 ⟨fits, fitsRecurse⟩, ?_⟩, shownAfter⟩
  rwa [Script.opened_append]

/-! ## Trees -/

/-- The code of a marked tree is scoped. -/
theorem gives_leads_tree {graph : BlockGraph} {forest : LoopForest} {around : Option Loop}
    (checked : graph.Checked) (isOf : forest.IsOf graph) (areOf : job.flags.AreOf graph forest)
    (fair : job.Fair) {tree : Tree}
    (fits : GotoFree.Fits graph forest (Noted graph forest job.flags.recorded) around tree) :
    forest.Owns around → ∀ scope,
      Lower.Gives (·.Within job.setting.program later none) (job.tree scope tree)
        fun answer made => job.Planned scope → job.Leads later scope answer made := by
  induction fits with
  | jump => exact fun _ scope => gives_leads_jump fair
  | conditional part noted direct branching edges takenArm notTakenArm takenLeaves notTakenLeaves
      takenFits notTakenFits takenIh notTakenIh =>
      intro owns scope
      exact gives_leads_conditional fair
        (fun inner => gives_nests_arm fun tree same => takenIh tree same owns inner)
        fun inner => gives_nests_arm fun tree same => notTakenIh tree same owns inner
  | sequence part noted chain flat fits ih =>
      intro owns scope
      rw [Job.tree]
      refine gives_leads_elems (fun tree member coords gate => ?_)
        (fun tree member => ih tree member owns) scope
      obtain ⟨coord, recorded⟩ := exists_recorded_of_gate part noted chain tree member coords gate
      exact hasControlCell_of_recorded recorded
  | loop part noted nested head heads whole fits ih =>
      intro owns scope
      have ownsBody := owns_some (owns.mem_all (Loop.mem_flattenAll_of_mem nested))
      obtain ⟨recurseOn, returnOn, valued⟩ := noted
      refine gives_leads_loop fair valued (fun coord member => ?_) (fun coord member => ?_)
        (ih ownsBody _)
      · rw [recurseOn] at member
        exact recorded_of_exit isOf owns areOf part nested whole (.inl member)
      · rw [returnOn] at member
        exact recorded_of_exit isOf owns areOf part nested whole (.inr member)
  | merge part noted heads several isEntry incoming_iff leaves fits ih =>
      intro owns scope
      rw [Job.tree]
      obtain ⟨coord, recorded⟩ :=
        exists_recorded_of_merge checked isOf owns part noted several incoming_iff
      refine (gives_nests_alternatives (hasControlCell_of_recorded recorded)
        fun tree member => ih tree member owns scope).bind fun stmts => .pure ?_
      intro made nests planned
      rw [List.append_nil]
      exact (nests planned).leads planned

end Job

end GotoFree
