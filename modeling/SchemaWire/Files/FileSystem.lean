import SchemaWire.Files.Access
import SchemaWire.Files.Path
import SchemaWire.SortedMap

/-!
File systems as values. Every file and directory has a location: the names on the way to it from
the root, each after a slash. A path is followed step by step, and each step has to start from a
directory that is there. Main statements: writing a file changes what is at its location and
nothing else.
-/
namespace SchemaWire.Files

/-- What is at a location. -/
inductive Entry where
  | file (text : String)
  | directory
deriving DecidableEq, Repr

/-- A file system: what is at each location but the root, and the directory from which relative
paths count. -/
structure FileSystem where
  entries : SortedMap Entry
  workingDirectory : String

namespace FileSystem

def root : String := ""

def child (location name : String) : String :=
  location ++ "/" ++ name

/-- The location of the directory around a location. The root is around itself. -/
def enclosing (location : String) : String :=
  let chars := location.toList
  String.ofList (chars.take (chars.length - (Text.lastSegment '/' chars).length - 1))

/-- A file system with nothing but a working directory of the given name. -/
def empty (name : String) : FileSystem :=
  ⟨SortedMap.empty.insert (child root name) .directory, child root name⟩

def get? (files : FileSystem) (location : String) : Option Entry :=
  if location = root then some .directory else files.entries.get? location

/-- The location after one more step of a path. -/
def step (files : FileSystem) (location piece : String) : Except FileError String :=
  match files.get? location with
  | none => .error .notFound
  | some (.file _) => .error .notDirectory
  | some .directory =>
      if piece = "" || piece = "." then .ok location
      else if piece = ".." then .ok (enclosing location)
      else .ok (child location piece)

/-- The location after several steps of a path. -/
def walk (files : FileSystem) (path : String) (steps : List String) : Except FileError String :=
  if path = "" then .error .notFound
  else steps.foldlM files.step (if isAbsolute path then root else files.workingDirectory)

/-- The location of a path, at which there need not be anything. -/
def locate (files : FileSystem) (path : String) : Except FileError String :=
  files.walk path (pieces path)

/-- The pieces of a path without slashes at its end. -/
def piecesBeforeSlash (path : String) : List String :=
  ((pieces path).reverse.dropWhile (· = "")).reverse

/-- The location of a path at which something is to be made. -/
def locateNew (files : FileSystem) (path : String) : Except FileError String :=
  files.walk path (piecesBeforeSlash path)

def at? (files : FileSystem) (path : String) : Option Entry :=
  match files.locate path with
  | .ok location => files.get? location
  | .error _ => none

def put (files : FileSystem) (location : String) (entry : Entry) : FileSystem :=
  { files with entries := files.entries.insert location entry }

def readText (files : FileSystem) (path : String) : Except FileError String := do
  match files.get? (← files.locate path) with
  | some (.file text) => return text
  | some .directory => throw .isDirectory
  | none => throw .notFound

/-- Where a file of a path is to be written. A path with a slash at its end is that of a
directory. -/
def locateFile (files : FileSystem) (path : String) : Except FileError String := do
  let location ← files.locateNew path
  if path.toList.getLast? = some '/' then throw .isDirectory
  match files.get? location with
  | some .directory => throw .isDirectory
  | _ => return location

def writeText (files : FileSystem) (path text : String) : Except FileError FileSystem := do
  return files.put (← files.locateFile path) (.file text)

/-- Makes the directory at a path, where nothing must be yet. -/
def makeDirectory (files : FileSystem) (path : String) : Except FileError FileSystem := do
  let location ← files.locateNew path
  if (files.get? location).isSome then throw .alreadyExists
  return files.put location .directory

/-- Makes the directory at a path unless it is there. -/
def ensureDirectory (files : FileSystem) (path : String) : Except FileError FileSystem :=
  match files.makeDirectory path with
  | .ok files => .ok files
  | .error fault => if files.at? path = some .directory then .ok files else .error fault

/-- Makes the directory at a path and, if that fails for want of the one around it, first makes
that one in the same way. The steps bound the number of directories. -/
def makeDirectoriesFrom : (steps : Nat) → FileSystem → String →
    Except FileError Unit × FileSystem
  | 0, files, _ => (.error .notFound, files)
  | steps + 1, files, path =>
      if path = "" then (.ok (), files)
      else
        match files.ensureDirectory path with
        | .ok files => (.ok (), files)
        | .error .notFound =>
            match makeDirectoriesFrom steps files ((parent? path).getD "") with
            | (.error fault, files) => (.error fault, files)
            | (.ok (), files) =>
                match files.ensureDirectory path with
                | .ok files => (.ok (), files)
                | .error fault => (.error fault, files)
        | .error fault => (.error fault, files)

/-- Makes the directory at a path and those around it that are not there. -/
def makeDirectories (files : FileSystem) (path : String) : Except FileError Unit × FileSystem :=
  makeDirectoriesFrom (path.length + 1) files path

theorem get?_put_self (files : FileSystem) {location : String} (entry : Entry)
    (h : location ≠ root) : (files.put location entry).get? location = some entry := by
  simp [get?, put, h]

theorem get?_put_of_ne (files : FileSystem) {location other : String} (entry : Entry)
    (h : other ≠ location) : (files.put location entry).get? other = files.get? other := by
  simp [get?, put, SortedMap.get?_insert_of_ne files.entries h]

instance : Access (StateM FileSystem) where
  readText path := fun files => (files.readText path, files)
  writeText path text := fun files =>
    match files.writeText path text with
    | .ok files => (.ok (), files)
    | .error fault => (.error fault, files)
  pathExists path := fun files => ((files.at? path).isSome, files)
  makeDirectories path := fun files => files.makeDirectories path

end FileSystem

end SchemaWire.Files
