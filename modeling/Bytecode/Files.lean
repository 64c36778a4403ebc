import Bytecode.Stream
import Bytecode.Table

/-! The files that a command can reach, and how a path leads to one of them.

A path is followed name by name, from the root if it starts with a slash and from the working directory otherwise. Every
name but the last one must lead to a directory. The directories above the working directory are known to be there, and
so is the root; of what is in them only what was taken in is known. -/

namespace Bytecode

/-- Why a file cannot be read or written. -/
inductive FileError where
  | notFound
  | isDirectory
  | notDirectory
  | nameTooLong
  | nulInName
  | notText
  deriving DecidableEq, Repr

def FileError.message : FileError → String
  | .notFound => "No such file or directory (os error 2)"
  | .isDirectory => "Is a directory (os error 21)"
  | .notDirectory => "Not a directory (os error 20)"
  | .nameTooLong => "File name too long (os error 36)"
  | .nulInName => "file name contained an unexpected NUL byte"
  | .notText => Input.notText

/-! ### Places -/

/-- Where the names of a place start: at the root, or a number of directories above the working directory. -/
inductive Base where
  | root
  | above (levels : Nat)
  deriving DecidableEq, Repr

/-- A place on disk: the names that lead to it, in order. -/
structure Place where
  base : Base
  names : List String := []
  deriving DecidableEq, Repr

namespace Place

/-- The place of a name in a directory. -/
def child (p : Place) (name : String) : Place :=
  { p with names := p.names ++ [name] }

/-- The directory that a place lies in; the root lies in itself. -/
def parent (p : Place) : Place :=
  if p.names.isEmpty then
    match p.base with
    | .root => p
    | .above levels => ⟨.above (levels + 1), []⟩
  else { p with names := p.names.dropLast }

/-- The place that a name leads to from a directory: a dot stays, and two dots go to the directory above. -/
def go (p : Place) (name : String) : Place :=
  if name = "." then p else if name = ".." then p.parent else p.child name

/-- The names in a path. -/
def namesIn (path : String) : List String :=
  (path.splitOn "/").filter (· != "")

/-- The directory that a path starts from. -/
def start (path : String) : Place :=
  ⟨if path.startsWith "/" then .root else .above 0, []⟩

/-- The place that a path spells. -/
def ofPath (path : String) : Place :=
  (namesIn path).foldl go (start path)

/-- The shortest path to a place. -/
def text (p : Place) : String :=
  match p.base with
  | .root => "/" ++ "/".intercalate p.names
  | .above levels => "/".intercalate (List.replicate levels ".." ++ p.names)

end Place

/-! ### Files -/

/-- What is at a place. -/
inductive Entry where
  | file (bytes : Array UInt8)
  | directory

/-- What is known to be on disk, by the shortest path to it. -/
structure Files where
  entries : Table Entry := {}

namespace Files

/-- The files with what is at a place. -/
def put (f : Files) (p : Place) (e : Entry) : Files :=
  ⟨f.entries.put p.text e⟩

/-- The files with what a path leads to. -/
def add (f : Files) (path : String) (e : Entry) : Files :=
  f.put (Place.ofPath path) e

/-- What is at a place. A place is a directory also if something is known to be in it. -/
def find? (f : Files) (p : Place) : Option Entry :=
  match f.entries.get? p.text with
  | some e => some e
  | none =>
    if p.names.isEmpty || f.entries.entries.any (fun e => e.1.startsWith (p.text ++ "/")) then some .directory else none

/-- The files in the working directory and below it. -/
def inWorkingDirectory (f : Files) : List (String × Array UInt8) :=
  f.entries.entries.filterMap fun e =>
    match e.2 with
    | .file bytes => if (Place.ofPath e.1).base = .above 0 then some (e.1, bytes) else none
    | .directory => none

/-- How many bytes a name may have. -/
def maxName : Nat := 255

/-- How many bytes a path may have. -/
def maxPath : Nat := 4095

/-- What a name stands for in a directory. -/
def look (f : Files) (p : Place) (name : String) : Except FileError (Option Entry) :=
  if maxName < name.utf8ByteSize then .error .nameTooLong else .ok (f.find? (p.child name))

/-- Goes from a directory on to one that a name leads to. -/
def enter (f : Files) (p : Place) (name : String) : Except FileError Place :=
  if name = "." ∨ name = ".." then .ok (p.go name)
  else do
    match ← f.look p name with
    | some .directory => return p.child name
    | some (.file _) => throw .notDirectory
    | none => throw .notFound

/-- The directory that a path leads to and the name at its end; there is none if the path ends in dots or has no names,
and then it leads to a directory. -/
def follow (f : Files) (path : String) : Except FileError (Place × Option String) := do
  if path.contains '\x00' then throw .nulInName
  if path = "" then throw .notFound
  if maxPath < path.utf8ByteSize then throw .nameTooLong
  let names := Place.namesIn path
  let directory ← names.dropLast.foldlM f.enter (Place.start path)
  match names.getLast? with
  | none => return (directory, none)
  | some name => if name = "." ∨ name = ".." then return (directory.go name, none) else return (directory, some name)

/-- The bytes of a file. A path that ends in a slash leads to no file. -/
def read (f : Files) (path : String) : Except FileError (Array UInt8) := do
  match ← f.follow path with
  | (_, none) => throw .isDirectory
  | (directory, some name) =>
    match ← f.look directory name with
    | some (.file bytes) => if path.endsWith "/" then throw .notDirectory else return bytes
    | some .directory => throw .isDirectory
    | none => throw .notFound

/-- The text of a file. -/
def readText (f : Files) (path : String) : Except FileError String := do
  let bytes ← f.read path
  match Input.textOf? bytes.toList with
  | some s => return s
  | none => throw .notText

/-- The files with one of them written; its directory must be there. A path that ends in a slash asks for a directory,
whether there is something or not. -/
def write (f : Files) (path : String) (bytes : Array UInt8) : Except FileError Files := do
  match ← f.follow path with
  | (_, none) => throw .isDirectory
  | (directory, some name) =>
    if path.endsWith "/" then throw .isDirectory
    match ← f.look directory name with
    | some .directory => throw .isDirectory
    | _ => return f.put (directory.child name) (.file bytes)

/-- The files with the text of one of them written. -/
def writeText (f : Files) (path : String) (text : String) : Except FileError Files :=
  f.write path text.toUTF8.data

end Files

end Bytecode
