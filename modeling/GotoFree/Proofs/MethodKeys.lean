import GotoFree.Lowering
import GotoFree.Program.Encode
import GotoFree.Proofs.AlikeReaders
import GotoFree.Proofs.MarkedPlaces

/-!
# The keys of methods

The report about a method is meant to point at the key of the method, in the object of methods of
the source. Where this key stands is found by reading the source as a program is read and keeping
the place of each key (`Program.readKeys`). The report points at the first place that has the name
of the method in quotes, whatever stands there; so it points at the key exactly if the key is
written without escapes and no such place comes before it (`Report.covers_key_iff`).
-/

namespace GotoFree

open Json

/-- A key in an object of methods. -/
structure MethodKey where
  /-- The method that the key names. -/
  method : MethodId
  /-- The text from the key on, with the quotes of the key. -/
  ahead : List Char
  behind : List Char
deriving DecidableEq

namespace MethodKey

/-- Reads the name of a method as a key. -/
def read : Scan MethodKey := fun text => do
  let (method, rest) ← MethodId.readName text
  return (⟨method, text, rest⟩, rest)

/-- A key stands in a text, and is read as the method's name there. -/
structure StandsIn (key : MethodKey) (whole : List Char) : Prop where
  named : MethodId.readName key.ahead = .ok (key.method, key.behind)
  within : key.ahead <:+ whole

/-- The characters of a key, and what stands before it. -/
theorem StandsIn.exists_parts {key : MethodKey} {whole : List Char} (stands : key.StandsIn whole) :
    ∃ before part, whole = before ++ part ++ key.behind ∧ key.ahead = part ++ key.behind := by
  obtain ⟨part, ahead⟩ := MethodId.advances_readName stands.named
  obtain ⟨before, all⟩ := stands.within
  exact ⟨before, part, by rw [List.append_assoc, ahead, all], ahead.symm⟩

/-- A key is read like the identifier of its method, with its place kept. -/
theorem readsLike_read (whole : List Char) :
    ReadsLike whole (fun method key => key.method = method ∧ key.StandsIn whole) MethodId.readName
      read := by
  intro text method rest within reads
  refine ⟨(MethodId.advances_readName reads).trans within, ⟨method, text, rest⟩, ?_, rfl, reads,
    within⟩
  simp only [read, reads, ok_bind, pure_eq_ok]

end MethodKey

namespace Program

/-- Reads a program for its methods with their keys, in the order of the text. -/
def readKeys : Reader (List (MethodKey × Method)) :=
  record (optional "classes" [] (list ClassDecl.read) <|
      required "methods" (entries MethodKey.read Method.read) <|
      required "entry" (mapped MethodId.mk string) <| .done)
    fun (_, methods, _, ()) => methods

/-- Methods are those that are listed with their keys, and the keys stand in a text. -/
structure KeyedBy (whole : List Char) (methods : SortedMap MethodId Method)
    (keyed : List (MethodKey × Method)) : Prop where
  listed : methods = .ofList (keyed.map fun entry => (entry.1.method, entry.2))
  stand : ∀ entry ∈ keyed, entry.1.StandsIn whole

/-- The keys of methods that are read alike are those of the same methods. -/
theorem keyedBy_ofList {whole : List Char} {found : List (MethodId × Method)}
    {keyed : List (MethodKey × Method)}
    (alike : List.Forall₂ (AlikeEntries fun method (key : MethodKey) =>
      key.method = method ∧ key.StandsIn whole) found keyed) :
    KeyedBy whole (.ofList found) keyed where
  listed := by
    refine congrArg SortedMap.ofList (List.forall₂_eq_eq_eq ▸ List.forall₂_map_right_iff.2 ?_)
    exact alike.imp fun _ _ here => Prod.ext here.1.1.symm here.2
  stand entry member := by
    obtain ⟨_, -, here⟩ := exists_of_mem_right alike member
    exact here.1.2

/-- A program is read like its keys. -/
theorem readsLike_readKeys (whole : List Char) (allowance : Nat) :
    ReadsLike whole (fun program keyed => KeyedBy whole program.methods keyed)
      (Program.read allowance) (readKeys allowance) := by
  have classes (allowance : Nat) :
      ReadsLike whole Eq (list ClassDecl.read allowance) (list ClassDecl.read allowance) :=
    (advances_list ClassDecl.advances_read allowance).readsLike
  have methods (allowance : Nat) : ReadsLike whole (KeyedBy whole)
      (mapped .ofList (entries MethodId.readName Method.read) allowance)
      (entries MethodKey.read Method.read allowance) :=
    (readsLike_entries (MethodKey.readsLike_read whole) Method.advances_read allowance).mapped
      keyedBy_ofList
  have entry (allowance : Nat) : ReadsLike whole Eq (mapped MethodId.mk string allowance)
      (mapped MethodId.mk string allowance) :=
    (advances_mapped MethodId.mk advances_string allowance).readsLike
  refine readsLike_record (.member classes (.some rfl) <| .member methods .none <|
    .member entry .none <| .done) (fun alike => ?_) allowance
  exact alike.2.1

/-- Wherever a program is read, the keys of its methods are found. -/
theorem exists_keyed {source : String} {program : Program} (parsed : parse source = .ok program) :
    ∃ keyed, readKeys.whole source.toList = .ok keyed ∧
      KeyedBy source.toList program.methods keyed := by
  obtain ⟨⟨found, rest⟩, reads, ended⟩ := bind_eq_ok_iff.1 parsed
  obtain ⟨-, keyed, reads', keys⟩ :=
    readsLike_readKeys source.toList nestingLimit (List.suffix_refl _) reads
  dsimp only at ended
  refine ⟨keyed, bind_eq_ok_iff.2 ⟨_, reads', ?_⟩, ?_⟩ <;> split at ended <;> cases ended
  · next blank => simp only [blank, pure_eq_ok]
  · exact keys

/-- A source has a key for a method: the key stands behind one text and in front of another, and the
value behind it is a body. -/
def KeyAt (source : String) (method : MethodId) (body : Method) (before key after : List Char) :
    Prop :=
  source.toList = before ++ key ++ after ∧
    ∃ keyed, readKeys.whole source.toList = .ok keyed ∧
      (⟨method, key ++ after, after⟩, body) ∈ keyed

/-- Each method of a parsed program has a key in its text. -/
theorem exists_keyAt {source : String} {program : Program} (parsed : parse source = .ok program)
    {method : MethodId} {body : Method} (found : program.method? method = some body) :
    ∃ before key after, KeyAt source method body before key after := by
  obtain ⟨keyed, reads, keys⟩ := exists_keyed parsed
  rw [method?, keys.listed, SortedMap.ofList, SortedMap.get?_foldl_insert, SortedMap.get?_empty,
    Option.or_none] at found
  obtain ⟨listed, last, rfl⟩ := Option.map_eq_some_iff.1 found
  obtain ⟨⟨key, body⟩, among, rfl⟩ :=
    List.mem_map.1 (List.mem_reverse.1 (List.mem_of_find?_eq_some last))
  obtain rfl : key.method = method := by simpa using List.find?_some last
  obtain ⟨before, part, all, ahead⟩ := (keys.stand _ among).exists_parts
  exact ⟨before, part, key.behind, all, keyed, reads, ahead ▸ among⟩

/-- A key of a program's source is read as the method's name. -/
theorem KeyAt.named {source : String} {program : Program} (parsed : parse source = .ok program)
    {method : MethodId} {body : Method} {before key after : List Char}
    (place : KeyAt source method body before key after) :
    MethodId.readName (key ++ after) = .ok (method, after) := by
  obtain ⟨-, keyed, reads, among⟩ := place
  obtain ⟨keyed', reads', keys⟩ := exists_keyed parsed
  obtain rfl : keyed = keyed' := Except.ok.inj (reads.symm.trans reads')
  exact (keys.stand _ among).named

end Program

namespace Report

/-- For every source of a program and every rejection of one of its methods: the source has a key
for the method; the report marks such a key exactly if the key is the quoted name, letter by letter,
and the quoted name occurs nowhere before it; and the report marks nothing exactly if the quoted
name does not occur. -/
theorem covers_key_iff {source : String} {program : Program}
    (parsed : Program.parse source = .ok program) {reason : Rejection} {method : MethodId}
    (blamed : reason.method? = some method) {body : Method}
    (found : program.method? method = some body) :
    (∃ before key after, Program.KeyAt source method body before key after) ∧
      (∀ {other before key after}, Program.KeyAt source method other before key after →
        MethodId.readName (key ++ after) = .ok (method, after) ∧
          ((ofRejection source reason).Covers source before key ↔
            key = quotedName method ∧ FirstBehind (quotedName method) source.toList before)) ∧
      ((ofRejection source reason).label = none ↔ ¬ quotedName method <:+: source.toList) :=
  ⟨Program.exists_keyAt parsed found,
    fun place => ⟨place.named parsed, covers_iff blamed place.1⟩, label_eq_none_iff blamed⟩

/-! ### A program with a broken method -/

section Blockless

/-- A method without blocks, which has no entry block. -/
def blocklessMethod : Method where
  className := "A"
  name := "m"
  isStatic := true
  params := []
  returnType := .void
  locals := []
  entry := ⟨0⟩
  blocks := []
  plan := none

/-- A program that starts with a broken method. -/
def blocklessProgram : Program where
  classes := []
  methods := .ofList [(.plain "A" "m", blocklessMethod)]
  entry := .plain "A" "m"

/-- Why the program is not lowered. -/
def blocklessReason : Rejection := .graph (.plain "A" "m") (.missingEntry ⟨0⟩)

/-- The methods as a member of the source. -/
def methodsMember : String × Json.Value :=
  ("methods", .object [("A.m", blocklessMethod.toJson)])

/-- The entry as a member of the source. -/
def entryMember : String × Json.Value := ("entry", .string "A.m")

/-- The source that lists the methods first. -/
def methodsFirst : List Char := (Json.Value.object [methodsMember, entryMember]).chars

/-- The source that lists the entry first. -/
def entryFirst : List Char := (Json.Value.object [entryMember, methodsMember]).chars

/-- A report points at the key where the methods are listed first. -/
theorem covers_key_iff_methodsFirst :
    Program.parse (String.ofList methodsFirst) = .ok blocklessProgram ∧
      ∃ before key after,
        Program.KeyAt (String.ofList methodsFirst) (.plain "A" "m") blocklessMethod before key
          after ∧
        (ofRejection (String.ofList methodsFirst) blocklessReason).Covers
          (String.ofList methodsFirst) before key := by
  have parsed : Program.parse (String.ofList methodsFirst) = .ok blocklessProgram := by
    rw [Program.parse, String.toList_ofList]
    exact eq_ok_of_toOption (by decide +kernel)
  have reads : Program.readKeys.whole (String.ofList methodsFirst).toList =
      .ok [(⟨.plain "A" "m", methodsFirst.drop 12, methodsFirst.drop 17⟩, blocklessMethod)] := by
    rw [String.toList_ofList]
    exact eq_ok_of_toOption (by decide +kernel)
  have place : Program.KeyAt (String.ofList methodsFirst) (.plain "A" "m") blocklessMethod
      (methodsFirst.take 12) (quotedName (.plain "A" "m")) (methodsFirst.drop 17) := by
    have key : quotedName (.plain "A" "m") ++ methodsFirst.drop 17 = methodsFirst.drop 12 := by
      decide +kernel
    refine ⟨?_, _, reads, ?_⟩
    · rw [String.toList_ofList, List.append_assoc, key, List.take_append_drop]
    · rw [key]
      exact List.mem_singleton_self _
  have first : FirstBehind (quotedName (.plain "A" "m")) (String.ofList methodsFirst).toList
      (methodsFirst.take 12) := by
    rw [String.toList_ofList]
    decide +kernel
  have blamed : blocklessReason.method? = some (.plain "A" "m") := rfl
  have found : blocklessProgram.method? (.plain "A" "m") = some blocklessMethod := by
    decide +kernel
  exact ⟨parsed, _, _, _, place,
    (((covers_key_iff parsed blamed found).2.1 place).2).2 ⟨rfl, first⟩⟩

/-- No report points at the key where the entry is listed first. -/
theorem not_covers_entryFirst :
    Program.parse (String.ofList entryFirst) = .ok blocklessProgram ∧
      blocklessProgram.lower .mutable none = .error (.rejected blocklessReason) ∧
      (ofRejection (String.ofList entryFirst) blocklessReason).label ≠ none ∧
      ∀ body before key after,
        Program.KeyAt (String.ofList entryFirst) (.plain "A" "m") body before key after →
        ¬ (ofRejection (String.ofList entryFirst) blocklessReason).Covers
          (String.ofList entryFirst) before key := by
  have blamed : blocklessReason.method? = some (.plain "A" "m") := rfl
  have sooner : entryFirst.take 9 ++ quotedName (.plain "A" "m") <+: entryFirst := by
    decide +kernel
  refine ⟨?_, ?_, ?_, fun body before key after place covers => ?_⟩
  · rw [Program.parse, String.toList_ofList]
    exact eq_ok_of_toOption (by decide +kernel)
  · have rejected : (blocklessProgram.lower .mutable none).map (fun _ => ()) =
        .error (.rejected blocklessReason) := by
      decide +kernel
    exact eq_error_of_map rejected
  · rw [Ne, label_eq_none_iff blamed, not_not, String.toList_ofList]
    exact (List.suffix_append _ _).isInfix.trans sooner.isInfix
  · have first := ((covers_iff blamed place.1).1 covers).2
    obtain ⟨parts, keyed, reads, among⟩ := place
    rw [String.toList_ofList] at first parts reads
    -- the name first occurs as the entry, and the only key stands further on
    have early := first.2 sooner
    have keys : (Program.readKeys.whole entryFirst).toOption.map
        (fun keyed => keyed.map fun entry => entry.1.ahead.length) = some [132] := by
      decide +kernel
    rw [reads, Except.toOption, Option.map_some, Option.some.injEq] at keys
    have late : (key ++ after).length = 132 := by
      have listed := List.mem_map_of_mem (f := fun entry => entry.1.ahead.length) among
      rw [keys] at listed
      exact List.mem_singleton.1 listed
    have long : entryFirst.length = 158 := by decide +kernel
    rw [parts, List.append_assoc, List.length_append, late] at long
    rw [List.length_take] at early
    omega

end Blockless

end Report

end GotoFree
