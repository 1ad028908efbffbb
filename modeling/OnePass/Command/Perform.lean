import OnePass.Code.Binary
import OnePass.Code.Listing
import OnePass.Command.Arguments
import OnePass.Compile
import OnePass.FileTree
import OnePass.Machine.Run
import OnePass.Settings
import OnePass.Sidecar

/-!
# Commands

What a command line does to a file tree and to the console. Settings come first, then the input is read and checked as a whole,
and only then is anything written. The log is no part of the tree.
-/

namespace OnePass

/-- Why the settings cannot be had. -/
inductive SettingsFailure where
  | unreadable (path : Bytes) (error : FileError)
  | rejected (path : Bytes) (error : SettingsError)
  /-- It cannot be told whether there are settings beside the input. -/
  | unseen (error : FileError)
  deriving DecidableEq, Repr

/-- The wording of the failure. -/
def SettingsFailure.message : SettingsFailure → Bytes
  | unreadable path error => Bytes.ofString "cannot read " ++ path ++ Bytes.ofString ": " ++ error.message
  | rejected path error =>
    Bytes.ofString "parse error in " ++ path ++ Bytes.ofString ": " ++
      error.message?.getD (Bytes.ofString "toml: malformed document")
  | unseen error => error.message

/-- Why a command fails. -/
inductive CommandFailure where
  | settings (failure : SettingsFailure)
  | unreadableSource (path : Bytes) (error : FileError)
  | rejectedSource (path : Bytes) (report : Report)
  | unencodable (error : Binary.WriteError)
  | unwritable (path : Bytes) (error : FileError)
  | unreadableBinary (path : Bytes) (error : FileError)
  | rejectedBinary (path : Bytes) (error : Binary.ReadError)
  | failedRun (path : Bytes) (error : RunError)
  /-- The compiler or the machine broke down. -/
  | breakdown
  /-- The program still runs when the budget is used up. -/
  | unfinished
  deriving DecidableEq, Repr

/-- The wording of the failure. -/
def CommandFailure.message : CommandFailure → Bytes
  | settings failure => Bytes.ofString "config: " ++ failure.message
  | unreadableSource path error =>
    Bytes.ofString "failed to read input file " ++ Text.quote path ++ Bytes.ofString ": " ++ error.message
  | rejectedSource path report => path ++ Bytes.ofString ": " ++ report.text
  | unencodable error => Bytes.ofString "encoding failed: " ++ error.message
  | unwritable path error => Bytes.ofString "failed to write " ++ Text.quote path ++ Bytes.ofString ": " ++ error.message
  | unreadableBinary path error =>
    Bytes.ofString "failed to read binary " ++ Text.quote path ++ Bytes.ofString ": " ++ error.message
  | rejectedBinary path error => path ++ Bytes.ofString ": " ++ error.message
  | failedRun path error => Bytes.ofString "run failed for " ++ Text.quote path ++ Bytes.ofString ": " ++ error.message
  | breakdown => Bytes.ofString "internal error"
  | unfinished => Bytes.ofString "still running"

/-- How a command ends. -/
inductive CommandResult where
  | done
  | failed (failure : CommandFailure)
  | refused (refusal : Refusal)
  deriving DecidableEq, Repr

namespace CommandResult

/-- The exit code. -/
def code : CommandResult → Nat
  | done => 0
  | failed _ => 1
  | refused .help => 0
  | refused _ => 2

/-- What is written to the standard error. -/
def errorText : CommandResult → Bytes
  | done => []
  | failed failure => failure.message ++ [0x0a]
  | refused refusal => refusal.message

end CommandResult

/-- What a command leaves behind. -/
structure CommandOutcome where
  result : CommandResult
  output : Bytes := []
  tree : FileTree
  deriving DecidableEq, Repr

/-! ## Settings -/

/-- The name of a settings file. -/
def settingsName : Bytes := Bytes.ofString "c0c.toml"

/-- The settings in the file at a path. A log file with a relative path is taken from the directory of the settings. -/
def loadSettings (t : FileTree) (path : Bytes) : Except SettingsFailure Settings := do
  let place := Path.resolve t.current path
  let text ← (t.read (Path.text place)).mapError (.unreadable path)
  let settings ← (Settings.read text).mapError (.rejected path)
  if settings.logFile.isEmpty ∨ Path.isAbsolute settings.logFile then return settings
  return { settings with logFile := Path.text (Path.resolve place.dropLast settings.logFile) }

/-- The settings beside an input, the defaults if there are none. -/
def findSettings (t : FileTree) (input : Bytes) : Except SettingsFailure Settings :=
  let path := Path.text ((Path.resolve t.current input).dropLast ++ [settingsName])
  match t.look path with
  | .ok _ => loadSettings t path
  | .error error => if error.fault = .missing then .ok {} else .error (.unseen error)

/-- The settings of an invocation: those of the file it names, or those beside the source to be compiled. -/
def Invocation.settings (i : Invocation) (t : FileTree) : Except SettingsFailure Settings :=
  if !i.options.settingsPath.isEmpty then loadSettings t i.options.settingsPath
  else match i.task with
    | .compile input _ => findSettings t input
    | _ => .ok {}

/-! ## Tasks -/

/-- The path of the sidecar beside a compiled program. -/
def sidecarPath (output : Bytes) : Bytes := output ++ Bytes.ofString ".dbg"

/-- The path of the listing beside a compiled program. -/
def listingPath (output : Bytes) : Bytes := output ++ Bytes.ofString ".lst"

/-- Compiles the source at a path. -/
def compileSource (t : FileTree) (input : Bytes) : Except CommandFailure (Program × Bytes) := do
  let source ← (t.read input).mapError (.unreadableSource input)
  match compile source with
  | .error (.report report) => throw (.rejectedSource input report)
  | .error (.breach _) => throw .breakdown
  | .ok p => return (p, ← (Binary.write p).mapError .unencodable)

/-- Writes files one after the other; those written before a failure stay. -/
def writeAll (t : FileTree) : List (Bytes × Bytes) → Option CommandFailure × FileTree
  | [] => (none, t)
  | (path, content) :: rest =>
    match t.write path content with
    | .ok t => writeAll t rest
    | .error error => (some (.unwritable path error), t)

/-- The files that a compiled program comes as. -/
def artifacts (i : Options) (s : Settings) (input output : Bytes) (p : Program) (binary : Bytes) : List (Bytes × Bytes) :=
  (output, binary) ::
    (if i.debugInfo || s.debugInfo then [(sidecarPath output, (Sidecar.ofProgram p input).write)] else []) ++
    (if i.listing || s.listing then [(listingPath output, Listing.ofProgram p)] else [])

/-- Compiles a source file and writes what comes of it. -/
def performCompile (i : Options) (s : Settings) (t : FileTree) (input output : Bytes) : CommandOutcome :=
  match compileSource t input with
  | .error failure => { result := .failed failure, tree := t }
  | .ok (p, binary) =>
    match writeAll t (artifacts i s input output p binary) with
    | (some failure, t) => { result := .failed failure, tree := t }
    | (none, t) =>
      { result := .done
        output := Bytes.ofString "compiled " ++ Bytes.ofNat binary.length ++ Bytes.ofString " bytes -> " ++ output ++ [0x0a]
        tree := t }

/-- The compiled program at a path. -/
def loadProgram (t : FileTree) (path : Bytes) : Except CommandFailure Program := do
  let b ← (t.read path).mapError (.unreadableBinary path)
  (Binary.read b).mapError (.rejectedBinary path)

/-- Lists a compiled program. -/
def performDisassemble (t : FileTree) (path : Bytes) : CommandOutcome :=
  match loadProgram t path with
  | .error failure => { result := .failed failure, tree := t }
  | .ok p => { result := .done, output := Listing.ofProgram p, tree := t }

/-- How a command that runs a program ends. -/
def resultOfRun (path : Bytes) : RunResult → CommandResult
  | .finished => .done
  | .failed .breakdown => .failed .breakdown
  | .failed error => .failed (.failedRun path error)
  | .running => .failed .unfinished

/-- Runs a compiled program on an input, for a budget of steps. -/
def performRun (i : Options) (t : FileTree) (path input : Bytes) (budget : Nat) : CommandOutcome :=
  match loadProgram t path with
  | .error failure => { result := .failed failure, tree := t }
  | .ok p =>
    let (result, m) := (Machine.start p input).run i.maxSteps.toInt budget
    { result := resultOfRun path result, output := m.console.output.toList, tree := t }

/-- Does what an invocation asks for. -/
def Invocation.perform (i : Invocation) (t : FileTree) (input : Bytes) (budget : Nat) : CommandOutcome :=
  match i.settings t with
  | .error failure => { result := .failed (.settings failure), tree := t }
  | .ok settings =>
    match i.task with
    | .compile source output => performCompile i.options settings t source output
    | .disassemble path => performDisassemble t path
    | .run path => performRun i.options t path input budget

/-- Does what a command line asks for, on a file tree and with an input for the program that it runs, if it runs one. -/
def perform (arguments : List Bytes) (t : FileTree) (input : Bytes) (budget : Nat) : CommandOutcome :=
  match Invocation.ofArguments arguments with
  | .error refusal => { result := .refused refusal, tree := t }
  | .ok i => i.perform t input budget

end OnePass
