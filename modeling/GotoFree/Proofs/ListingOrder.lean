import GotoFree.Proofs.AlikeJobs
import GotoFree.Proofs.FunctionNames
import GotoFree.Proofs.Reordering

/-!
# Listing order does not matter

The code that is made from a program, its tables and its warnings do not show in which order the
program lists its classes and the blocks of its methods, and neither does the answer whether it can
be lowered (`Program.lower_reordered`). The graph of a method holds its blocks by number, so it does
not show their order, and all that is left of it is a question of look-ups.
-/

namespace GotoFree

/-! ## Graphs -/

namespace BlockGraph

/-- Different identifiers are not repeated. -/
theorem firstRepeated_eq_none {met ids : List BlockId} (distinct : ids.Nodup)
    (fresh : ∀ id ∈ ids, id ∉ met) : firstRepeated met ids = none := by
  induction ids generalizing met with
  | nil => rfl
  | cons id rest ih =>
      obtain ⟨new, distinct⟩ := List.nodup_cons.1 distinct
      rw [firstRepeated, if_neg (fresh id List.mem_cons_self)]
      refine ih distinct fun other member known => ?_
      rcases List.mem_cons.1 known with rfl | known
      · exact new member
      · exact fresh other (List.mem_cons_of_mem _ member) known

/-- A graph does not show in which order its blocks were listed. -/
theorem ofBlocks_eq_of_perm {entry : BlockId} {one other : List Block}
    (distinct : (one.map Block.id).Nodup) (perm : one.Perm other) :
    ofBlocks entry one = ofBlocks entry other := by
  have others : (other.map Block.id).Nodup := (perm.map Block.id).nodup_iff.1 distinct
  have keys : ((one.map fun block => (block.id, block)).map Prod.fst).Nodup := by
    rw [List.map_map]
    exact distinct
  unfold ofBlocks
  rw [firstRepeated_eq_none distinct (by simp), firstRepeated_eq_none others (by simp),
    SortedMap.ofList_perm keys (perm.map _)]

end BlockGraph

/-! ## Methods -/

namespace Method.Reordered

variable {one other : Method}

/-- The plan of a method is checked alike in any order of its blocks. -/
theorem checkedPlan_eq (reordered : one.Reordered other) :
    one.checkedPlan = other.checkedPlan := by
  obtain ⟨blocks, -, rfl⟩ := reordered
  have checks : one.checkIntroductions = ({ one with blocks } : Method).checkIntroductions := by
    funext met introductions
    induction introductions generalizing met with
    | nil => rfl
    | cons first rest ih =>
        obtain ⟨name, place⟩ := first
        simp only [checkIntroductions, ih]
        rfl
  unfold checkedPlan
  rw [checks]
  rfl

/-- A method is structured alike in any order of its blocks. -/
theorem structured_eq (reordered : one.Reordered other)
    (distinct : (one.blocks.map Block.id).Nodup) (id : MethodId) :
    Lower.structured id one = Lower.structured id other := by
  obtain ⟨blocks, perm, rfl⟩ := reordered
  unfold Lower.structured
  rw [BlockGraph.ofBlocks_eq_of_perm distinct perm]

end Method.Reordered

section Programs

variable {one other : Program} (reordered : one.Reordered other) (once : one.ListsOnce)
  {layout : Layout} {model : ObjectModel}
include reordered once

/-- The jobs of a method in reordered programs are alike. -/
theorem Program.Reordered.alike {first second : Method} (related : first.Reordered second)
    (copies : first.CopiesOnce) (distinct : (first.blocks.map Block.id).Nodup) {id : MethodId}
    {function : String} {plan : BindingPlan} {flags : Flags} :
    Job.Alike ⟨⟨one, layout, model⟩, id, first, function, plan, flags⟩
      ⟨⟨other, layout, model⟩, id, second, function, plan, flags⟩ where
  id := rfl
  function := rfl
  plan := rfl
  flags := rfl
  layout := rfl
  model := rfl
  locals := by obtain ⟨blocks, -, rfl⟩ := related; rfl
  returnType := by obtain ⟨blocks, -, rfl⟩ := related; rfl
  entry := by obtain ⟨blocks, -, rfl⟩ := related; rfl
  hasSource := related.hasSource_eq
  incoming := related.incoming_eq copies
  block? := related.block?_eq distinct
  methodTaking := by
    funext className name arity
    exact reordered.methodTaking_eq className name arity
  resolve := by
    funext className name arity
    exact reordered.resolve_eq once className name arity
  callee := reordered.map_method? fun _ _ => rfl

namespace Lower

/-- A method is lowered alike in any order of its blocks. -/
theorem method_eq_of_reordered {id : MethodId} {first second : Method}
    (related : first.Reordered second) (copies : first.CopiesOnce)
    (distinct : (first.blocks.map Block.id).Nodup) :
    Lower.method ⟨one, layout, model⟩ id first = Lower.method ⟨other, layout, model⟩ id second := by
  have names : first.incomingNames = second.incomingNames :=
    congrArg (List.map Param.name) (related.incoming_eq copies)
  have requests : request id first = request id second := by
    obtain ⟨blocks, -, rfl⟩ := related
    rfl
  unfold Lower.method
  rw [requests, related.checkedPlan_eq, related.structured_eq distinct, names]
  refine congrArg (request id second >>= ·) (funext fun function => ?_)
  refine congrArg (check second.checkedPlan >>= ·) (funext fun plan => ?_)
  refine congrArg (structured id second >>= ·) (funext fun (tree, flags) => ?_)
  have alike : Job.Alike ⟨⟨one, layout, model⟩, id, first, function, plan, flags⟩
      ⟨⟨other, layout, model⟩, id, second, function, plan, flags⟩ :=
    reordered.alike once related copies distinct
  simp only [alike.hasControlCell_eq, alike.introduceEntry_eq, alike.tree_eq, alike.closed_eq]

/-- What a method is lowered to in the one program it is lowered to in the other. -/
theorem method_of_reordered {id : MethodId} {first second : Method}
    (found : one.method? id = some first) (related : first.Reordered second)
    {progress : Progress} {result : MethodCode × Progress}
    (made : Lower.method ⟨one, layout, model⟩ id first progress = .ok result) :
    Lower.method ⟨other, layout, model⟩ id second progress = .ok result := by
  obtain ⟨-, graph, -, -, -, -, -, -, -, -, -, -, -, -, built, -⟩ := method_cases found made
  obtain ⟨-, -, -, distinct, -⟩ := BlockGraph.of_ofBlocks built
  rw [← method_eq_of_reordered reordered once related (once.copies id first found) distinct]
  exact made

/-- The methods in the queue are lowered alike after reordering. -/
theorem queued_of_reordered {steps : Nat} {progress : Progress}
    {result : List MethodCode × Progress}
    (made : queued ⟨one, layout, model⟩ steps progress = .ok result) :
    queued ⟨other, layout, model⟩ steps progress = .ok result := by
  induction steps generalizing progress result with
  | zero => exact made
  | succ steps ih =>
      cases next : progress.agenda.queue with
      | nil =>
          rw [queued_nil next] at made ⊢
          exact made
      | cons id rest =>
          cases found : one.method? id with
          | none =>
              simp only [queued, bind_apply, get_apply, ok_bind, next, found, set_apply] at made
              cases made
          | some first =>
              obtain ⟨second, there, related⟩ := reordered.exists_method found
              rw [queued_cons next found] at made
              rw [queued_cons next there]
              obtain ⟨code, _, lowered, made⟩ := stepped_bind_iff.1 made
              obtain ⟨codes, _, others, made⟩ := stepped_bind_iff.1 made
              exact stepped_bind_iff.2
                ⟨code, _, method_of_reordered reordered once found related lowered,
                  stepped_bind_iff.2 ⟨codes, _, ih others, made⟩⟩

/-- A program that is lowered is lowered alike after reordering. -/
theorem program_of_reordered {progress : Progress} {result : LoweredProgram × Progress}
    (made : Lower.program ⟨one, layout, model⟩ progress = .ok result) :
    Lower.program ⟨other, layout, model⟩ progress = .ok result := by
  unfold Lower.program at made ⊢
  dsimp only at made ⊢
  rw [← reordered.entry, ← reordered.size_methods]
  cases found : one.method? one.entry with
  | none =>
      rw [found] at made
      cases made
  | some first =>
      obtain ⟨second, there, blocks, -, rfl⟩ := reordered.exists_method found
      rw [found] at made
      rw [there]
      obtain ⟨name, _, named, made⟩ := stepped_bind_iff.1 made
      obtain ⟨codes, _, others, made⟩ := stepped_bind_iff.1 made
      exact stepped_bind_iff.2 ⟨name, _, named,
        stepped_bind_iff.2 ⟨codes, _, queued_of_reordered reordered once others, made⟩⟩

end Lower

end Programs

/-- Programs that differ in the order of their classes and blocks only are lowered to the same code,
with the same tables, or both are not lowered. -/
theorem Program.lower_reordered {one other : Program} (reordered : one.Reordered other)
    (once : one.ListsOnce) (model : ObjectModel) (entry : Option MethodId)
    (lowered : LoweredProgram) :
    one.lower model entry = .ok lowered ↔ other.lower model entry = .ok lowered := by
  have goes {one other : Program} (reordered : one.Reordered other) (once : one.ListsOnce)
      (lowers : one.lower model entry = .ok lowered) : other.lower model entry = .ok lowered := by
    obtain ⟨prepared, layout, last, chosen, made, ran⟩ := lower_eq_ok_iff.1 lowers
    have chosenFrom : Reordered { one with entry := entry.getD one.entry }
        { other with entry := entry.getD other.entry } :=
      ⟨reordered.classes, reordered.methods, congrArg entry.getD reordered.entry⟩
    have chosenOnce : ListsOnce { one with entry := entry.getD one.entry } :=
      ⟨once.classes, once.copies⟩
    obtain ⟨second, there, related, onceMore⟩ :=
      chosenFrom.exists_withoutArguments chosenOnce chosen
    exact lower_eq_ok_iff.2 ⟨second, layout, last, there, related.ofProgram_eq onceMore ▸ made,
      Lower.program_of_reordered related onceMore ran⟩
  exact ⟨goes reordered once, goes reordered.symm (reordered.listsOnce once)⟩

/-- A method that adds its argument to a field of its object. -/
def addingMethod (className : String) : Method where
  className := className
  name := "add"
  isStatic := false
  params := [.int]
  returnType := .int
  locals := [⟨"self", .ref className⟩, ⟨"n", .int⟩, ⟨"m", .int⟩]
  entry := ⟨0⟩
  blocks := [⟨⟨0⟩, [.identity "self" .this, .identity "n" (.param 0),
    .assign (.var "m") (.fieldRead "self" ⟨"A", "total"⟩ (.ofList ["A", "B"])),
    .assign (.var "m") (.binary .add (.var "m") (.var "n")), .ret (some (.var "m"))], []⟩]
  plan := none

/-- A method that calls another one in a loop, with its blocks. -/
def addingLoop (blocks : List Block) : Method where
  className := "Main"
  name := "main"
  isStatic := true
  params := []
  returnType := .void
  locals := [⟨"x", .ref "A"⟩]
  entry := ⟨4⟩
  blocks := blocks
  plan := none

/-- The blocks of the loop. -/
def addingBlocks : List Block := [
  ⟨⟨4⟩, [.assign (.var "x") (.new "B")], [⟨1⟩]⟩,
  ⟨⟨1⟩, [.branch .nondet], [⟨2⟩, ⟨3⟩]⟩,
  ⟨⟨2⟩, [.call ⟨.virtual, ⟨"A", "add", 1⟩, some "x", [.int 1], .ofList ["A", "B"]⟩], [⟨1⟩]⟩,
  ⟨⟨3⟩, [.ret none], []⟩]

/-- A program with a class and a subclass, which are listed in some order. -/
def addingProgram (classes : List ClassDecl) (blocks : List Block) : Program where
  classes := classes
  methods := .ofList [(.plain "Main" "main", addingLoop blocks),
    (.plain "A" "add", addingMethod "A"), (.plain "B" "add", addingMethod "B")]
  entry := .plain "Main" "main"

/-- The classes of the program. -/
def addingClasses : List ClassDecl := [⟨"A", none, [⟨"total", .int⟩]⟩, ⟨"B", some "A", []⟩]

/-- A program with its classes and blocks in reverse is lowered alike. -/
theorem Program.lower_reordered_adding :
    (addingProgram addingClasses addingBlocks).Reordered
        (addingProgram addingClasses.reverse addingBlocks.reverse) ∧
      (addingProgram addingClasses addingBlocks).ListsOnce ∧
      ∃ lowered, (addingProgram addingClasses addingBlocks).lower .mutable none = .ok lowered ∧
        (addingProgram addingClasses.reverse addingBlocks.reverse).lower .mutable none =
          .ok lowered := by
  have method?_eq (classes : List ClassDecl) (blocks : List Block) (id : MethodId) :
      (addingProgram classes blocks).method? id =
        if .plain "B" "add" = id then some (addingMethod "B")
        else if .plain "A" "add" = id then some (addingMethod "A")
        else if .plain "Main" "main" = id then some (addingLoop blocks) else none := by
    simp only [addingProgram, method?, SortedMap.ofList, List.foldl_cons, List.foldl_nil,
      SortedMap.get?_insert, SortedMap.get?_empty]
  have reordered : (addingProgram addingClasses addingBlocks).Reordered
      (addingProgram addingClasses.reverse addingBlocks.reverse) := by
    refine ⟨(List.reverse_perm addingClasses).symm, fun id => ?_, rfl⟩
    rw [method?_eq, method?_eq]
    split_ifs
    · exact .some (.refl _)
    · exact .some (.refl _)
    · exact .some ⟨_, (List.reverse_perm addingBlocks).symm, rfl⟩
    · exact .none
  have once : (addingProgram addingClasses addingBlocks).ListsOnce := by
    refine ⟨by decide, fun id method found => ?_⟩
    rw [method?_eq] at found
    split_ifs at found
    all_goals
      cases found
      decide
  have names : (addingProgram addingClasses addingBlocks).functionNames? =
      some ["__vtable_2", "Main_main__loop_1", "Main_main", "A_add", "B_add"] := by
    decide +kernel
  obtain ⟨lowered, lowers, -⟩ := exists_of_functionNames? names
  exact ⟨reordered, once, lowered, lowers,
    (lower_reordered reordered once .mutable none lowered).1 lowers⟩

end GotoFree
