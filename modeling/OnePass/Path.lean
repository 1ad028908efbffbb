import OnePass.Text.Bytes

/-!
# Paths

Paths with slashes, as texts: their extensions, and the absolute paths they stand for once the dots are gone.
-/

namespace OnePass.Path

/-- The byte between the components of a path. -/
def slash : UInt8 := 0x2f

/-- The byte that opens an extension. -/
def dot : UInt8 := 0x2e

/-- The component for the same directory. -/
def here : Bytes := [dot]

/-- The component for the directory above. -/
def above : Bytes := [dot, dot]

/-- The path starts at the root. -/
def isAbsolute (path : Bytes) : Bool := path.head? == some slash

/-- The parts of a path between its slashes. -/
def parts (path : Bytes) : List Bytes := (Bytes.splitOn slash path).filter fun part => !part.isEmpty

/-- The path ends with a slash, so that it leads into a directory. -/
def endsWithSlash (path : Bytes) : Bool := path.getLast? == some slash

/-- The components of a path; that it leads into a directory is a component of its own. -/
def components (path : Bytes) : List Bytes := if endsWithSlash path then parts path ++ [here] else parts path

/-- The extension: the last component from its last dot on, empty if it has none. -/
def extension (path : Bytes) : Bytes :=
  let name := path.reverse.takeWhile (· ≠ slash)
  if name.contains dot then dot :: (name.takeWhile (· ≠ dot)).reverse else []

/-- The path with another extension in place of its own; one without gets it appended. -/
def replaceExtension (path new : Bytes) : Bytes := path.take (path.length - (extension path).length) ++ new

/-- Goes one component on from an absolute place. -/
def descend (place : List Bytes) (part : Bytes) : List Bytes :=
  if part = here then place else if part = above then place.dropLast else place ++ [part]

/-- The absolute place of a path that is taken from a directory. -/
def resolve (directory : List Bytes) (path : Bytes) : List Bytes :=
  (components path).foldl descend (if isAbsolute path then [] else directory)

/-- The text of an absolute place. -/
def text (place : List Bytes) : Bytes := slash :: Bytes.join [slash] place

end OnePass.Path
