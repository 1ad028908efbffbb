import OnePass.Command.Perform

/-!
# The program

Runs a command line on the files of the system: takes a picture of the places that the command looks at, lets the command do its
work on that, and writes the files back that have changed.
-/

namespace OnePass

/-- The path of a place as the system takes it. -/
def systemPath (place : List Bytes) : String := (String.fromUTF8? (Path.text place).toByteArray).getD ""

/-- What the system has at a place. -/
def probe (place : List Bytes) : IO (Option Entry) := do
  try
    return some (.file (← IO.FS.readBinFile (systemPath place)).toList)
  catch
    | .noFileOrDirectory .. => return none
    | .inappropriateType .. => return some .directory
    | e => throw e

/-- The tree with what the system has at a place and on the way to it. -/
def picture (t : FileTree) (done : List Bytes) : List Bytes → IO FileTree
  | [] => return t
  | part :: parts => do
    match ← probe (done ++ [part]) with
    | none => return t
    | some entry => picture (t.set (done ++ [part]) entry) (done ++ [part]) parts

/-- The paths that an invocation looks at. -/
def Invocation.paths (i : Invocation) : List Bytes :=
  let paths := match i.task with
    | .compile input output => [input, output, sidecarPath output, listingPath output]
    | .disassemble path => [path]
    | .run path => [path]
  if i.options.settingsPath.isEmpty then paths else i.options.settingsPath :: paths

/-- The places that an invocation looks at, the settings beside its paths among them. -/
def Invocation.places (i : Invocation) (current : List Bytes) : List (List Bytes) :=
  i.paths.flatMap fun path =>
    let place := Path.resolve current path
    [place, place.dropLast ++ [settingsName]]

/-- Reads the standard input to its end. -/
partial def readInput (stdin : IO.FS.Stream) (b : ByteArray) : IO Bytes := do
  let more ← stdin.read 65536
  if more.isEmpty then return b.toList else readInput stdin (b ++ more)

/-- The steps that a run may take. -/
def stepBudget : Nat := 2 ^ 64

end OnePass

open OnePass in
/-- Does what the command line asks for. -/
def main (arguments : List String) : IO UInt32 := do
  let stdin ← IO.getStdin
  let stdout ← IO.getStdout
  let stderr ← IO.getStderr
  let arguments := arguments.map Bytes.ofString
  let directory ← IO.currentDir
  let current := Path.parts (Bytes.ofString s!"{directory}")
  let empty : FileTree := { current }
  let invocation := (Invocation.ofArguments arguments).toOption
  let places := (invocation.map (·.places current)).getD []
  let before ← places.foldlM (fun t place => picture t [] place) empty
  let input ← match invocation with
    | some { task := .run _, .. } => readInput stdin ByteArray.empty
    | _ => pure []
  let outcome := perform arguments before input stepBudget
  for (place, content) in outcome.tree.files do
    if before.get? place ≠ some (.file content) then IO.FS.writeBinFile (systemPath place) content.toByteArray
  stdout.write outcome.output.toByteArray
  stderr.write outcome.result.errorText.toByteArray
  return outcome.result.code.toUInt32
