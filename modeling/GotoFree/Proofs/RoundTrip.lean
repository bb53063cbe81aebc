import GotoFree.Program.Encode
import GotoFree.Proofs.Containers
import GotoFree.Proofs.JsonShapes

/-!
# Reading back written programs

A program is read back from its JSON text as it was (`Program.parse_text`), unless the text nests
containers more deeply than readers follow. The parts of a program nest a fixed number of them; only
array types nest without bound. So each part is read back by a reader that may enter as many
containers as its types need, and some more.
-/

namespace GotoFree

open Json

/-! ## Nesting of types -/

/-- How many array types a type is the element type of, one within the other. -/
def Ty.nesting : Ty → Nat
  | .array element => element.nesting + 1
  | .int | .bool | .ref _ | .void => 0

/-- The types that are written in an expression. -/
def Expr.types : Expr → List Ty
  | .newArray element _ => [element]
  | .cast _ type => [type]
  | .unmodelled _ operandTypes => operandTypes
  | .use _ | .binary .. | .unary .. | .fieldRead .. | .arrayRead .. | .arrayLength _ | .new _
  | .call _ | .nondet => []

/-- The types that are written in an instruction. -/
def Instr.types : Instr → List Ty
  | .assign _ value => value.types
  | .branch condition => condition.types
  | .identity .. | .goto | .ret _ | .call _ | .nop _ | .throw _ | .aliased .. => []

/-- The types that are written in a block. -/
def Block.types (block : Block) : List Ty := block.instrs.flatMap Instr.types

/-- The types that are written in a method. -/
def Method.types (method : Method) : List Ty :=
  method.returnType :: method.params ++ method.locals.map Declared.type ++
    method.blocks.flatMap Block.types

/-- The types that are written in a class. -/
def ClassDecl.types (decl : ClassDecl) : List Ty := decl.fields.map Declared.type

/-- The types that are written in a program. -/
def Program.types (program : Program) : List Ty :=
  program.classes.flatMap ClassDecl.types ++ program.methods.values.flatMap Method.types

/-! ## Containers of parts -/

section Containers

variable {α κ : Type} [Key κ] [DecidableEq κ] {read : Reader α} {write : α → Value} {depth : Nat}

theorem takes_map {items : List α} (each : ∀ item ∈ items, Takes read (write item) item depth) :
    Takes (list read) (.array (items.map write)) items (depth + 1) :=
  takes_list (List.forall₂_map_left_iff.2 (List.forall₂_same.2 each))

/-- A map is read back from its entries, if each key is read back from its label. -/
theorem takes_sortedMap {name : Scan κ} {label : κ → String} {m : SortedMap κ α}
    (keys : ∀ key rest, name (quoted (label key) ++ rest) = .ok (key, rest))
    (each : ∀ value ∈ m.values, Takes read (write value) value depth) :
    Takes (mapped .ofList (entries name read))
      (.object (m.entries.map fun (key, value) => (label key, write value))) m (depth + 1) := by
  refine Takes.mapped (takes_entries ?_) (SortedMap.ofList_entries m)
  refine List.forall₂_map_left_iff.2 (List.forall₂_same.2 fun entry member => ?_)
  exact ⟨keys entry.1, each entry.2 (List.mem_map_of_mem member)⟩

end Containers

section Parts

variable {depth bound : Nat}

/-! ## Names and numbers -/

theorem takes_names (names : SortedSet String) :
    Takes readNames (writeNames names) names (depth + 1) :=
  (takes_map fun name _ => takes_string name).mapped (SortedSet.ofList_toList names)

theorem takes_name? (name? : Option String) :
    Takes (nullable string) (writeName? name?) name? depth := by
  cases name? with
  | none => exact takes_nullable_none
  | some name => exact (takes_string name).nullable Value.noConfusion

theorem takes_word (word : UInt64) : Takes readWord (.number word.toNat) word depth := by
  have below := word.toNat_lt
  refine (takes_integer ?_ ?_ ?_).mapped ?_
  · omega
  · omega
  · simpa [Number.wordLimit] using below
  · simp

namespace BlockId

theorem ofInt_toNat (id : BlockId) : ofInt id.number.toNat = id := by
  simp [ofInt]

theorem toNat_le_greatest (id : BlockId) : (id.number.toNat : Int) ≤ greatest := by
  have below := id.number.toNat_lt
  simp only [greatest]
  omega

/-- The number of a block is read back. -/
theorem takes (id : BlockId) : Takes BlockId.read id.toJson id depth := by
  have below := id.number.toNat_lt
  refine (takes_integer (by omega) id.toNat_le_greatest ?_).mapped id.ofInt_toNat
  simp [Number.wordLimit]
  omega

/-- A block number is read back from the name of a member. -/
theorem readName_quoted (id : BlockId) (rest : List Char) :
    readName (quoted id.text ++ rest) = .ok (id, rest) := by
  have below := id.number.toNat_lt
  have small : id.number.toNat < Number.wordLimit := by
    simp [Number.wordLimit]
    omega
  rw [readName, text, memberNumber_quoted (by omega) id.toNat_le_greatest small, ok_bind]
  exact congrArg (fun id => Except.ok (id, rest)) id.ofInt_toNat

end BlockId

/-- The identifier of a method is read back. -/
theorem MethodId.readName_quoted (id : MethodId) (rest : List Char) :
    readName (quoted id.text ++ rest) = .ok (id, rest) := by
  rw [readName, memberName_quoted]
  rfl

/-! ## Types and declarations -/

/-- Each allowance gives a reader of the forms of a type. -/
theorem Ty.exists_read (allowance : Nat) :
    ∃ element, Ty.read allowance = variant (form? element) allowance := by
  cases allowance with
  | zero => exact ⟨_, rfl⟩
  | succ inner => exact ⟨_, rfl⟩

/-- A type is read back, if it is not nested too deep. -/
theorem Ty.takes (ty : Ty) : Takes Ty.read ty.toJson ty (ty.nesting + 1) := by
  induction ty with
  | int | bool | void =>
      intro allowance rest enough ends
      obtain ⟨element, reads⟩ := Ty.exists_read allowance
      rw [reads]
      exact takes_plain rfl allowance rest enough ends
  | ref className =>
      intro allowance rest enough ends
      obtain ⟨element, reads⟩ := Ty.exists_read allowance
      rw [reads]
      exact takes_tagged rfl ((takes_string className).mapped rfl) allowance rest enough ends
  | array element ih =>
      intro allowance rest enough _
      obtain ⟨inner, rfl⟩ := Nat.exists_eq_succ_of_ne_zero (Nat.ne_zero_of_lt enough)
      have known : form? (read inner) "array" =
          some (.tagged (mapped .array fun _ => read inner)) := rfl
      have reads := ih inner ('}' :: rest) (Nat.le_of_succ_le_succ enough) endsValue_brace
      refine variant_object known ?_
      rw [mapped, reads]
      rfl

theorem Ty.takes_of_le {ty : Ty} (shallow : ty.nesting ≤ bound) :
    Takes Ty.read ty.toJson ty (bound + 1) :=
  ty.takes.mono (Nat.succ_le_succ shallow)

/-- A declaration is read back. -/
theorem Declared.takes {declared : Declared} (shallow : declared.type.nesting ≤ bound) :
    Takes Declared.read declared.toJson declared (bound + 2) :=
  takes_record (.member (takes_string _) (.member (Ty.takes_of_le shallow) .done)) (by decide) _

/-- A class is read back. -/
theorem ClassDecl.takes {decl : ClassDecl} (shallow : ∀ ty ∈ decl.types, ty.nesting ≤ bound) :
    Takes ClassDecl.read decl.toJson decl (bound + 4) := by
  have fields := takes_map fun declared member =>
    Declared.takes (shallow _ (List.mem_map_of_mem member))
  exact takes_record (.member (takes_string _) (.member (takes_name? _) (.member fields .done)))
    (by decide) _

/-! ## Expressions -/

/-- A field is read back. -/
theorem FieldRef.takes (field : FieldRef) :
    Takes FieldRef.read field.toJson field (depth + 1) :=
  takes_record (.member (takes_string _) (.member (takes_string _) .done)) (by decide) _

/-- A source is read back. -/
theorem Source.takes (source : Source) :
    Takes Source.read source.toJson source (depth + 1) := by
  cases source with
  | this => exact takes_plain rfl
  | param index => exact takes_tagged rfl ((takes_word index).mapped rfl)

/-- An operand is read back. -/
theorem Operand.takes (operand : Operand) :
    Takes Operand.read operand.toJson operand (depth + 1) := by
  cases operand with
  | var name => exact takes_tagged rfl ((takes_string name).mapped rfl)
  | int value =>
      have below := value.toInt_lt
      have above := value.le_toInt
      have small : value.toInt.natAbs < Number.wordLimit := by
        simp only [Number.wordLimit]
        omega
      exact takes_tagged rfl ((takes_integer value.minValue_le_toInt value.toInt_le small).mapped
        (congrArg Operand.int value.ofInt_toInt))
  | bool value => exact takes_tagged rfl ((takes_boolean value).mapped rfl)
  | null => exact takes_plain rfl

theorem Operand.toJson_ne_null (operand : Operand) : operand.toJson ≠ .null := by
  cases operand <;> exact Value.noConfusion

theorem Operand.takes_option (operand? : Option Operand) :
    Takes (nullable Operand.read) (operand?.elim .null Operand.toJson) operand? (depth + 1) := by
  cases operand? with
  | none => exact takes_nullable_none
  | some operand => exact operand.takes.nullable operand.toJson_ne_null

theorem BinOp.takes (op : BinOp) :
    Takes (choice BinOp.names) (nameIn BinOp.names op) op depth :=
  takes_choice (by cases op <;> rfl)

theorem UnOp.takes (op : UnOp) : Takes (choice UnOp.names) (nameIn UnOp.names op) op depth :=
  takes_choice (by cases op <;> rfl)

theorem CallKind.takes (kind : CallKind) :
    Takes (choice CallKind.names) (nameIn CallKind.names kind) kind depth :=
  takes_choice (by cases kind <;> rfl)

/-- A callee is read back. -/
theorem Callee.takes (callee : Callee) :
    Takes Callee.read callee.toJson callee (depth + 1) :=
  takes_record
    (.member (takes_string _) (.member (takes_string _) (.member (takes_word _) .done)))
    (by decide) _

/-- A call is read back. -/
theorem Call.takes (call : Call) : Takes Call.read call.toJson call (depth + 3) := by
  have args : Takes (list Operand.read) (.array (call.args.map Operand.toJson)) call.args
      (depth + 2) := takes_map fun operand _ => operand.takes
  exact takes_record (.member call.kind.takes (.member call.callee.takes (.member (takes_name? _)
    (.member args (.member (takes_names _) .done))))) (by decide) _

/-- An expression is read back. -/
theorem Expr.takes {expr : Expr} (shallow : ∀ ty ∈ expr.types, ty.nesting ≤ bound) :
    Takes Expr.read expr.toJson expr (bound + 4) := by
  cases expr with
  | use operand => exact takes_tagged rfl (operand.takes.mapped rfl)
  | binary op left right =>
      exact takes_tagged rfl (takes_record
        (.member op.takes (.member left.takes (.member right.takes .done))) (by decide) _)
  | unary op operand =>
      exact takes_tagged rfl (takes_record
        (.member op.takes (.member operand.takes .done)) (by decide) _)
  | fieldRead base field possible =>
      exact takes_tagged rfl (takes_record
        (.member (takes_string _) (.member field.takes (.member (takes_names _) .done)))
        (by decide) _)
  | arrayRead base index =>
      exact takes_tagged rfl (takes_record
        (.member (takes_string _) (.member index.takes .done)) (by decide) _)
  | arrayLength base => exact takes_tagged rfl ((takes_string base).mapped rfl)
  | new className => exact takes_tagged rfl ((takes_string className).mapped rfl)
  | newArray element size =>
      have type := (Ty.takes_of_le (shallow element (by simp [types]))).mono (Nat.le_succ _)
      exact takes_tagged rfl (takes_record
        (.member type (.member size.takes .done)) (by decide) _)
  | call site => exact takes_tagged rfl (site.takes.mapped rfl)
  | nondet => exact takes_plain rfl
  | cast operand type =>
      have type := (Ty.takes_of_le (shallow type (by simp [types]))).mono (Nat.le_succ _)
      exact takes_tagged rfl (takes_record
        (.member operand.takes (.member type .done)) (by decide) _)
  | unmodelled text operandTypes =>
      have types := takes_map fun ty member => Ty.takes_of_le (shallow ty member)
      exact takes_tagged rfl (takes_record
        (.member (takes_string _) (.member types .done)) (by decide) _)

/-! ## Instructions -/

/-- A place is read back. -/
theorem Place.takes (place : Place) : Takes Place.read place.toJson place (depth + 3) := by
  cases place with
  | var name => exact takes_tagged rfl ((takes_string name).mapped rfl)
  | field base target possible =>
      exact takes_tagged rfl (takes_record
        (.member (takes_string _) (.member target.takes (.member (takes_names _) .done)))
        (by decide) _)
  | arrayElement base index =>
      exact takes_tagged rfl (takes_record
        (.member (takes_string _) (.member index.takes .done)) (by decide) _)

/-- A path is read back. -/
theorem AccessPath.takes (path : AccessPath) :
    Takes AccessPath.read path.toJson path (depth + 3) := by
  have fields : Takes (list FieldRef.read) (.array (path.fields.map FieldRef.toJson)) path.fields
      (depth + 2) := takes_map fun field _ => field.takes
  exact takes_record (.member (takes_string _) (.member fields .done)) (by decide) _

/-- An instruction is read back. -/
theorem Instr.takes {instr : Instr} (shallow : ∀ ty ∈ instr.types, ty.nesting ≤ bound) :
    Takes Instr.read instr.toJson instr (bound + 6) := by
  cases instr with
  | identity target source =>
      exact takes_tagged rfl (takes_record
        (.member (takes_string _) (.member source.takes .done)) (by decide) _)
  | assign target value =>
      exact takes_tagged rfl (takes_record
        (.member target.takes (.member (Expr.takes shallow) .done)) (by decide) _)
  | branch condition =>
      exact takes_tagged rfl (takes_record
        (.member (Expr.takes shallow) .done) (by decide) _)
  | goto => exact takes_plain rfl
  | ret value =>
      exact takes_tagged rfl (takes_record
        (.member (Operand.takes_option value) .done) (by decide) _)
  | call site => exact takes_tagged rfl (site.takes.mapped rfl)
  | nop unreachable =>
      exact takes_tagged rfl (takes_record
        (.member (takes_boolean _) .done) (by decide) _)
  | throw value =>
      exact takes_tagged rfl (takes_record
        (.member value.takes .done) (by decide) _)
  | aliased left right =>
      exact takes_tagged rfl (takes_record
        (.member left.takes (.member right.takes .done)) (by decide) _)

/-- A block is read back. -/
theorem Block.takes {block : Block} (shallow : ∀ ty ∈ block.types, ty.nesting ≤ bound) :
    Takes Block.read block.toJson block (bound + 8) := by
  have instrs := takes_map fun instr member =>
    Instr.takes fun ty mentioned => shallow ty (List.mem_flatMap.2 ⟨instr, member, mentioned⟩)
  have succs : Takes (list BlockId.read) (.array (block.succs.map BlockId.toJson)) block.succs
      (bound + 7) := takes_map fun id _ => id.takes
  exact takes_record (.member block.id.takes (.member instrs (.member succs .done))) (by decide) _

/-! ## Methods -/

theorem Binding.takes (binding : Binding) :
    Takes (choice Binding.names) binding.toJson binding depth :=
  takes_choice (by cases binding <;> rfl)

/-- Bindings are read back. -/
theorem takes_bindings (bindings : SortedMap String Binding) :
    Takes readBindings (writeBindings bindings) bindings (depth + 1) :=
  takes_sortedMap memberName_quoted fun binding _ => binding.takes

/-- A plan is read back. -/
theorem BindingPlan.takes (plan : BindingPlan) :
    Takes BindingPlan.read plan.toJson plan (depth + 3) := by
  have blocks : Takes (mapped .ofList (entries BlockId.readName readBindings))
      (.object (plan.blocks.entries.map fun entry => (entry.1.text, writeBindings entry.2)))
      plan.blocks (depth + 2) :=
    takes_sortedMap BlockId.readName_quoted fun bindings _ => takes_bindings bindings
  exact takes_record (.member (takes_bindings _) (.member blocks .done)) (by decide) _

theorem BindingPlan.takes_option (plan? : Option BindingPlan) :
    Takes (nullable BindingPlan.read) (plan?.elim .null BindingPlan.toJson) plan? (depth + 3) := by
  cases plan? with
  | none => exact takes_nullable_none
  | some plan => exact plan.takes.nullable Value.noConfusion

/-- A method is read back. -/
theorem Method.takes {method : Method} (shallow : ∀ ty ∈ method.types, ty.nesting ≤ bound) :
    Takes Method.read method.toJson method (bound + 10) := by
  simp only [Method.types, List.forall_mem_append, List.forall_mem_cons, List.forall_mem_map]
    at shallow
  obtain ⟨⟨⟨ofReturn, ofParams⟩, ofLocals⟩, ofBlocks⟩ := shallow
  have params := takes_map fun ty member =>
    (Ty.takes_of_le (ofParams ty member)).mono (Nat.le_add_right (bound + 1) 7)
  have returnType := (Ty.takes_of_le ofReturn).mono (Nat.le_add_right (bound + 1) 8)
  have locals := takes_map fun declared member =>
    (Declared.takes (ofLocals declared member)).mono (Nat.le_add_right (bound + 2) 6)
  have blocks := takes_map fun block member => Block.takes fun ty mentioned =>
    ofBlocks ty (List.mem_flatMap.2 ⟨block, member, mentioned⟩)
  exact takes_record
    (.member (takes_string _) (.member (takes_string _) (.member (takes_boolean _)
      (.member params (.member returnType (.member locals (.member method.entry.takes
        (.member blocks (.member (BindingPlan.takes_option _) .done))))))))) (by decide) _

/-! ## Programs -/

/-- A program is read back. -/
theorem Program.takes {program : Program} (shallow : ∀ ty ∈ program.types, ty.nesting ≤ bound) :
    Takes Program.read program.toJson program (bound + 12) := by
  obtain ⟨ofClasses, ofMethods⟩ := List.forall_mem_append.1 shallow
  simp only [List.forall_mem_flatMap] at ofClasses ofMethods
  have classes := takes_map fun decl member =>
    (ClassDecl.takes (ofClasses decl member)).mono (Nat.le_add_right (bound + 4) 6)
  have methods := takes_sortedMap MethodId.readName_quoted fun method member =>
    Method.takes (ofMethods method member)
  exact takes_record (.member classes (.member methods
    (.member ((takes_string _).mapped rfl) .done))) (by decide) _

end Parts

/-- A program whose array types are nested at most a hundred deep is read back from its text. -/
theorem Program.parse_text (program : Program) (shallow : ∀ ty ∈ program.types, ty.nesting ≤ 100) :
    Program.parse program.toJson.text = .ok program := by
  have reads := Program.takes shallow nestingLimit [] (by decide) (by simp [EndsValue])
  rw [List.append_nil] at reads
  rw [parse, Value.text, String.toList_ofList, Reader.whole, reads]
  rfl

/-- A program with instructions, types and bindings of every form, extreme numbers and names that
have to be escaped. -/
def writtenProgram : Program where
  classes :=
    [⟨"Cell", none, [⟨"next", .ref "Cell"⟩, ⟨"deep", Nat.repeat .array 100 .int⟩]⟩,
      ⟨"Sub \"quoted\"", some "Cell", []⟩]
  methods := .ofList
    [(⟨"Cell.run"⟩,
      { className := "Cell"
        name := "run\n\t\\"
        isStatic := true
        params := [.int, .bool, .ref "Ünïcode ∀", .array (.ref "Cell")]
        returnType := .void
        locals := [⟨"x", .int⟩, ⟨"\u0001\u001f", .ref "Cell"⟩]
        entry := ⟨0⟩
        blocks :=
          [⟨⟨0⟩,
            [.identity "this" .this, .identity "p" (.param 18446744073709551615),
              .assign (.var "x") (.use (.int Int64.minValue)),
              .assign (.var "x") (.binary .ge (.var "x") (.int (-1))),
              .assign (.field "c" ⟨"Cell", "next"⟩ (.ofList ["Cell"])) (.unary .neg (.bool true)),
              .assign (.arrayElement "a" .null) (.fieldRead "c" ⟨"Cell", "next"⟩ .empty),
              .assign (.var "y") (.arrayRead "a" (.int 0)),
              .assign (.var "y") (.arrayLength "a"),
              .assign (.var "y") (.new "Cell"),
              .assign (.var "y") (.newArray (.array .bool) (.var "x")),
              .assign (.var "y") .nondet,
              .assign (.var "y") (.cast (.var "y") (.ref "Cell")),
              .call ⟨.virtual, ⟨"Cell", "get", 1⟩, some "c", [.var "x"], .ofList ["Cell"]⟩,
              .aliased ⟨"c", [⟨"Cell", "next"⟩]⟩ ⟨"d", []⟩,
              .nop true,
              .branch (.unmodelled "x in y" [.void, .array .int])],
            [⟨1⟩, ⟨4294967295⟩]⟩,
            ⟨⟨1⟩, [.ret none], []⟩, ⟨⟨2⟩, [.goto], [⟨1⟩]⟩, ⟨⟨3⟩, [.throw (.var "x")], []⟩,
            ⟨⟨4294967295⟩, [.ret (some (.var "x"))], []⟩]
        plan := some
          ⟨.ofList [("x", .mutable)], .ofList [(⟨4294967295⟩, .ofList [("y", .const)])]⟩ })]
  entry := ⟨"Cell.run"⟩

/-- A program with every form is read back. -/
theorem Program.parse_text_writtenProgram :
    (∀ ty ∈ writtenProgram.types, ty.nesting ≤ 100) ∧
      Program.parse writtenProgram.toJson.text = .ok writtenProgram := by
  have shallow : ∀ ty ∈ writtenProgram.types, ty.nesting ≤ 100 := by decide
  exact ⟨shallow, Program.parse_text writtenProgram shallow⟩

end GotoFree
