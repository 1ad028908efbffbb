import OnePass.Path

/-!
# File trees

The directories and files that a command sees, with a directory to take relative paths from. A path is walked component by
component, and each component but the last has to be a directory that is there.
-/

namespace OnePass

/-- What is at a place. -/
inductive Entry where
  | directory
  | file (content : Bytes)
  deriving DecidableEq, Repr, Inhabited

/-- A file tree. The root and the working directory are always there. -/
structure FileTree where
  entries : List (List Bytes × Entry) := []
  /-- The working directory. -/
  current : List Bytes := []
  deriving DecidableEq, Repr, Inhabited

/-- Why a path does not lead where it should. -/
inductive PathFault where
  | missing
  | notDirectory
  | isDirectory
  | invalid
  deriving DecidableEq, Repr

/-- The wording of the fault. -/
def PathFault.reason : PathFault → String
  | missing => "no such file or directory"
  | notDirectory => "not a directory"
  | isDirectory => "is a directory"
  | invalid => "invalid argument"

/-- What is done with a file when it fails. -/
inductive FileAction where
  | opening
  | reading
  | looking
  deriving DecidableEq, Repr

/-- The word for the action. -/
def FileAction.verb : FileAction → String
  | opening => "open"
  | reading => "read"
  | looking => "stat"

/-- A failed action on the file at a path. -/
structure FileError where
  action : FileAction
  path : Bytes
  fault : PathFault
  deriving DecidableEq, Repr

/-- The wording of the error. -/
def FileError.message (e : FileError) : Bytes :=
  Bytes.ofString e.action.verb ++ Bytes.ofString " " ++ e.path ++ Bytes.ofString ": " ++ Bytes.ofString e.fault.reason

namespace FileTree

/-- What is at a place. -/
def get? (t : FileTree) (place : List Bytes) : Option Entry :=
  match t.entries.lookup place with
  | some entry => some entry
  | none => if place.isPrefixOf t.current then some .directory else none

/-- Puts an entry at a place, instead of what is there. -/
def set (t : FileTree) (place : List Bytes) (entry : Entry) : FileTree :=
  { t with entries := (place, entry) :: t.entries.filter (·.1 ≠ place) }

/-- Adds a file at a place, and the directories on the way to it. -/
def addFile (t : FileTree) (place : List Bytes) (content : Bytes) : FileTree :=
  let ways := (List.range place.length).map place.take
  (ways.foldl (fun t way => t.set way .directory) t).set place (.file content)

/-- The files of the tree with their places, in no particular order. -/
def files (t : FileTree) : List (List Bytes × Bytes) :=
  t.entries.filterMap fun (place, entry) =>
    match entry with
    | .file content => some (place, content)
    | .directory => none

/-- Walks from a place along components. Where it ends there need not be anything. -/
def walk (t : FileTree) (place : List Bytes) : List Bytes → Except PathFault (List Bytes)
  | [] => .ok place
  | part :: parts =>
    match t.get? place with
    | some .directory => t.walk (Path.descend place part) parts
    | some (.file _) => .error .notDirectory
    | none => .error .missing

/-- The place that a path is taken from. -/
def origin (t : FileTree) (path : Bytes) : List Bytes := if Path.isAbsolute path then [] else t.current

/-- A path that names something. -/
def checkPath (path : Bytes) : Except PathFault Unit :=
  if path.isEmpty then .error .missing else if path.contains 0 then .error .invalid else .ok ()

/-- What a path leads to. -/
def find (t : FileTree) (path : Bytes) : Except PathFault Entry := do
  checkPath path
  let place ← t.walk (t.origin path) (Path.components path)
  match t.get? place with
  | some entry => return entry
  | none => throw .missing

/-- Looks what is at a path. -/
def look (t : FileTree) (path : Bytes) : Except FileError Entry := (t.find path).mapError (⟨.looking, path, ·⟩)

/-- Reads the file at a path. -/
def read (t : FileTree) (path : Bytes) : Except FileError Bytes :=
  match t.find path with
  | .ok (.file content) => .ok content
  | .ok .directory => .error ⟨.reading, path, .isDirectory⟩
  | .error fault => .error ⟨.opening, path, fault⟩

/-- The place where a file is to be written: in a directory that is there, and not in place of a directory. -/
def target (t : FileTree) (path : Bytes) : Except PathFault (List Bytes) := do
  checkPath path
  let parts := Path.parts path
  let name := parts.getLast?.getD Path.here
  let directory ← t.walk (t.origin path) parts.dropLast
  match t.get? directory with
  | none => throw .missing
  | some (.file _) => throw .notDirectory
  | some .directory =>
    let place := Path.descend directory name
    if Path.endsWithSlash path ∨ name = Path.here ∨ name = Path.above ∨ t.get? place = some .directory then
      throw .isDirectory
    return place

/-- Writes a file at a path. -/
def write (t : FileTree) (path content : Bytes) : Except FileError FileTree :=
  match t.target path with
  | .ok place => .ok (t.set place (.file content))
  | .error fault => .error ⟨.opening, path, fault⟩

end FileTree

end OnePass
