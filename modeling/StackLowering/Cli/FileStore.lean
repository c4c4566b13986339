import StackLowering.Cli.Path
import StackLowering.CompileError

/-!
# File stores

A tree of directories and files, without symbolic links, as a program sees it: paths are resolved
against a working directory, one segment at a time, and every segment but the last has to lead into
a directory.

## Main definitions

* `FileStore`: the store
* `FileStore.readText`, `FileStore.writeText`: access by path
-/

namespace StackLowering

/-- What stands at a place in a store. -/
inductive Node
  | directory
  | file (content : ByteArray)

/-- A tree of directories and files: each place, which is a list of names from the root, with what
stands there. -/
structure FileStore where
  workingDirectory : List String
  nodes : List (List String × Node)

namespace FileStore

/-- What stands at a place. -/
def node? (s : FileStore) (place : List String) : Option Node :=
  if place = [] then some .directory else s.nodes.lookup place

/-- The store with something else at a place. -/
def put (s : FileStore) (place : List String) (node : Node) : FileStore :=
  { s with nodes := (place, node) :: s.nodes.filter (·.1 != place) }

/-- Where the walk along a path stands, and how the path ends. -/
structure Target where
  directory : List String
  /-- The last segment, unless the path ends in a directory by its form. -/
  name : Option String
  /-- Whether a slash follows the last segment. -/
  slash : Bool

/-- The place of a target. -/
def Target.place (t : Target) : List String :=
  match t.name with
  | some name => t.directory ++ [name]
  | none => t.directory

/-- Follows all segments but the last from a directory. -/
def walk (s : FileStore) (slash : Bool) : List String → List (List Char) → Except FileFault Target
  | dir, [] => .ok ⟨dir, none, slash⟩
  | dir, [last] =>
    if last = ['.'] then .ok ⟨dir, none, slash⟩
    else if last = ['.', '.'] then .ok ⟨dir.dropLast, none, slash⟩
    else .ok ⟨dir, some (.ofList last), slash⟩
  | dir, next :: rest =>
    if next = ['.'] then s.walk slash dir rest
    else if next = ['.', '.'] then s.walk slash dir.dropLast rest
    else
      let place := dir ++ [.ofList next]
      match s.node? place with
      | some .directory => s.walk slash place rest
      | some (.file _) => .error .notADirectory
      | none => .error .notFound

/-- Follows a path up to its last segment. -/
def resolve (s : FileStore) (path : String) : Except FileFault Target :=
  let chars := path.toList
  let start := if chars.head? = some '/' then [] else s.workingDirectory
  s.walk (chars.getLast? = some '/') start ((Path.segments chars).filter (· ≠ []))

/-- The content of a file. -/
def read (s : FileStore) (path : String) : Except FileFault ByteArray := do
  let target ← s.resolve path
  match s.node? target.place with
  | none => throw .notFound
  | some .directory => throw .isADirectory
  | some (.file content) => if target.slash then throw .notADirectory else return content

/-- The content of a file as text. -/
def readText (s : FileStore) (path : String) : Except FileFault String := do
  match String.fromUTF8? (← s.read path) with
  | some text => return text
  | none => throw .notText

/-- The place that writing to a path would create or replace. -/
def writablePlace (s : FileStore) (path : String) : Except FileFault (List String) := do
  let target ← s.resolve path
  if target.name.isNone || target.slash then throw .isADirectory
  match s.node? target.place with
  | some .directory => throw .isADirectory
  | _ => return target.place

/-- The store after a text was written to a path. -/
def writeText (s : FileStore) (path text : String) : Except FileFault FileStore := do
  return s.put (← s.writablePlace path) (.file text.toUTF8)

end FileStore

end StackLowering
