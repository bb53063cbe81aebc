import GotoFree.SortedMap

/-!
# File systems

What a run does to files goes through a `Disk`: the three actions it needs, in any monad. The
actions of a `FileSystem`, a tree of directories and files held as a value, show what they mean.
-/

namespace GotoFree

/-! ## Paths -/

namespace Path

/-- The segments of a path. A segment that is empty or a point stands for the place it is at. -/
def segments (path : String) : List String := path.splitOn "/"

/-- Whether a segment goes nowhere. -/
def isIdle (segment : String) : Bool := segment = "" || segment = "."

/-- The greatest number of bytes of a path. -/
def greatestSize : Nat := 4095

/-- The greatest number of bytes of a name. -/
def greatestNameSize : Nat := 255

/-- Whether a segment is no longer than names may be. -/
def isShort (segment : String) : Bool := segment.utf8ByteSize ≤ greatestNameSize

/-- The segments without those at the end that go nowhere; the first one stays. -/
def trimmed : List String → List String
  | [] => []
  | first :: rest => first :: (rest.reverse.dropWhile isIdle).reverse

/-- The path of the directory that a path's last segment stands in, unless that is the place where
the path starts. -/
def parent? (path : String) : Option String :=
  match trimmed (segments path) with
  | [] | [_] => none
  | parts =>
      match trimmed parts.dropLast with
      | [""] => some "/"
      | outer => some ("/".intercalate outer)

end Path

/-! ## Actions -/

/-- The actions of a run on files. Each says whether it succeeds. -/
structure Disk (m : Type → Type) where
  /-- The text of a file. -/
  read : String → m (Option String)
  /-- Makes a directory and those it stands in, as far as they are missing. -/
  makeDirectories : String → m Bool
  /-- Gives a file a text; the file is made if it is missing. -/
  write : String → String → m Bool

/-! ## File systems as values -/

/-- What is at a place. -/
inductive FileNode where
  | directory
  | file (text : String)
deriving DecidableEq

/-- A place: the names on the way to it from the root. -/
abbrev Location := List String

/-- A tree of files. The root is a directory. -/
structure FileSystem where
  nodes : SortedMap Location FileNode
  /-- The place where relative paths start. -/
  working : Location

namespace FileSystem

/-- What is at a place. -/
def node? (system : FileSystem) (location : Location) : Option FileNode :=
  if location.isEmpty then some .directory else system.nodes.get? location

/-- Whether a place is a directory. -/
def isDirectory (system : FileSystem) (location : Location) : Bool :=
  system.node? location = some .directory

/-- The file system with something else at a place. -/
def put (system : FileSystem) (location : Location) (node : FileNode) : FileSystem :=
  { system with nodes := system.nodes.insert location node }

/-- The place a segment leads to from a place. -/
def follow (location : Location) (segment : String) : Location :=
  if Path.isIdle segment then location
  else if segment = ".." then location.dropLast
  else location ++ [segment]

/-- The place where a path starts, and the segments from there. No path is empty, has a null or is
longer than paths may be. -/
def start? (system : FileSystem) (path : String) : Option (Location × List String) :=
  if path.isEmpty || path.toList.contains '\x00' || Path.greatestSize < path.utf8ByteSize then none
  else match Path.segments path with
    | "" :: rest => some ([], rest)
    | segments => some (system.working, segments)

/-- The place that segments lead to, by directories only. -/
def walk (system : FileSystem) (location : Location) : List String → Option Location
  | [] => some location
  | segment :: rest =>
      if system.isDirectory location && Path.isShort segment then
        walk system (follow location segment) rest
      else none

/-- The place of a path. Something need not be there. -/
def locate (system : FileSystem) (path : String) : Option Location := do
  let (location, segments) ← system.start? path
  system.walk location segments

/-- The text of the file at a path. -/
def read (system : FileSystem) (path : String) : Option String := do
  match system.node? (← system.locate path) with
  | some (.file text) => some text
  | some .directory | none => none

/-- Makes the directories along segments from a directory. Those made before one that cannot be
made stay. -/
def makeAlong (system : FileSystem) (location : Location) : List String → Bool × FileSystem
  | [] => (true, system)
  | segment :: rest =>
      let next := follow location segment
      match system.node? next with
      | some .directory => makeAlong system next rest
      | some (.file _) => (false, system)
      | none =>
          if Path.isShort segment then makeAlong (system.put next .directory) next rest
          else (false, system)

/-- Makes the directory at a path. -/
def makeDirectories (system : FileSystem) (path : String) : Bool × FileSystem :=
  match system.start? path with
  | some (location, segments) => makeAlong system location segments
  | none => (false, system)

/-- Gives the file at a path a text. -/
def write (system : FileSystem) (path text : String) : Bool × FileSystem :=
  match system.locate path with
  | none => (false, system)
  | some location =>
      match system.node? location with
      | some .directory => (false, system)
      | some (.file _) | none => (true, system.put location (.file text))

/-- The actions on a file system that is a value. -/
def disk : Disk (StateM FileSystem) where
  read path := do return (← get).read path
  makeDirectories path := modifyGet fun system => system.makeDirectories path
  write path text := modifyGet fun system => system.write path text

end FileSystem

end GotoFree
