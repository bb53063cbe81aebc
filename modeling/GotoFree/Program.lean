import GotoFree.Program.Method

/-!
# Programs

A program lists its classes, its method bodies by name and the method it starts with. Calls find
their callee here: by name and arity (`Program.methodTaking`), or by walking up the superclasses of
a receiver's class (`Program.resolve`).
-/

namespace GotoFree

/-- A class with the fields it declares itself. -/
structure ClassDecl where
  name : String
  superclass : Option String
  fields : List Declared
deriving DecidableEq

/-- A whole program. -/
structure Program where
  classes : List ClassDecl
  methods : SortedMap MethodId Method
  entry : MethodId
deriving DecidableEq

namespace Program

/-- The name of the method that initialises a new object. -/
def constructorName : String := "<init>"

/-- The first class of a name. -/
def class? (program : Program) (name : String) : Option ClassDecl :=
  program.classes.find? fun decl => decl.name = name

/-- The body of a method. -/
def method? (program : Program) (id : MethodId) : Option Method := program.methods.get? id

/-- The method of a class with a name and an arity, listed under its plain name or under its
name with the arity. -/
def methodTaking (program : Program) (className name : String) (arity : Nat) : Option MethodId :=
  [MethodId.plain className name, MethodId.overloaded className name arity].find? fun id =>
    (program.method? id).any fun method => method.params.length = arity

/-- The instance method of a class itself with a name and an arity. -/
def instanceMethod (program : Program) (className name : String) (arity : Nat) :
    Option MethodId :=
  (program.methodTaking className name arity).filter fun id =>
    (program.method? id).any fun method => !method.isStatic

/-- The superclass a class declares. -/
def superclass? (program : Program) (className : String) : Option String :=
  (program.class? className).bind ClassDecl.superclass

/-- The classes met on the way up from a class, itself first; the walk ends at a class without a
superclass or before a class that was met already. At most `steps` classes are listed. -/
def climb (program : Program) : Nat → List String → String → List String
  | 0, _, _ => []
  | steps + 1, met, className =>
      if className ∈ met then []
      else className :: match program.superclass? className with
        | some parent => climb program steps (className :: met) parent
        | none => []

/-- A class and its superclasses, nearest first. All but the last are declared, so one more step
than there are declarations reaches the end. -/
def ancestry (program : Program) (className : String) : List String :=
  program.climb (program.classes.length + 1) [] className

/-- The method that a call on a receiver of a class runs: that of the nearest class on the way up
that has one. -/
def resolve (program : Program) (className name : String) (arity : Nat) : Option MethodId :=
  (program.ancestry className).findSome? fun ancestor =>
    program.instanceMethod ancestor name arity

/-- The instructions of all methods. -/
def instrs (program : Program) : List Instr := program.methods.values.flatMap Method.instrs

end Program

end GotoFree
