import OnePass.Number.Integer
import OnePass.Path
import OnePass.Text.Quoted

/-!
# Command lines

What a command line asks for: options first, then a command and the paths it takes. A command line that asks for nothing is
refused with a text for the user.
-/

namespace OnePass

/-- The options of a command line. -/
structure Options where
  verbosity : Nat := 0
  /-- The path of the settings file, empty if none is given. -/
  settingsPath : Bytes := []
  debugInfo : Bool := false
  listing : Bool := false
  /-- The limit on the steps of a run, none if it is not positive. -/
  maxSteps : Int64 := 0
  deriving DecidableEq, Repr, Inhabited

/-- What is to be done. -/
inductive Task where
  | compile (input output : Bytes)
  | disassemble (path : Bytes)
  | run (path : Bytes)
  deriving DecidableEq, Repr, Inhabited

/-- A command line that asks for something. -/
structure Invocation where
  options : Options
  task : Task
  deriving DecidableEq, Repr, Inhabited

/-- An option by its name. -/
inductive Flag where
  | verbosity
  | settingsPath
  | debugInfo
  | listing
  | maxSteps
  deriving DecidableEq, Repr

namespace Flag

/-- The name of an option. -/
def name : Flag → Bytes
  | verbosity => Bytes.ofString "v"
  | settingsPath => Bytes.ofString "config"
  | debugInfo => Bytes.ofString "debug-info"
  | listing => Bytes.ofString "listing"
  | maxSteps => Bytes.ofString "max-steps"

/-- The option with a name. -/
def ofName? (n : Bytes) : Option Flag := [verbosity, settingsPath, debugInfo, listing, maxSteps].find? (·.name == n)

/-- The option is a switch, which needs no value. -/
def isSwitch : Flag → Bool
  | verbosity | debugInfo | listing => true
  | settingsPath | maxSteps => false

end Flag

/-- Why a command line is refused. -/
inductive Refusal where
  /-- The user asked for the usage. -/
  | help
  | badSyntax (argument : Bytes)
  | unknownFlag (name : Bytes)
  | missingValue (flag : Flag)
  | badSwitch (value : Bytes) (flag : Flag)
  | badNumber (value : Bytes) (flag : Flag) (reason : Number.NumeralError)
  | noCommand
  | unknownCommand (name : Bytes)
  | compilePaths
  | binaryPaths (command : Bytes)
  deriving DecidableEq, Repr

namespace Refusal

/-- How the program is used. -/
def usage : Bytes := Bytes.ofString (String.intercalate "\n" [
  "Usage: c0c [options] <command> [args]",
  "",
  "Commands:",
  "  compile <in> [out]   compile a source file (default out: <in>.o0)",
  "  disasm <bin>         print a listing of a compiled program",
  "  run <bin>            execute a compiled program on the reference VM",
  "",
  "Options:",
  "  -config string",
  "    \tconfiguration file (default: c0c.toml next to the input)",
  "  -debug-info",
  "    \twrite a <output>.dbg debug-info sidecar",
  "  -listing",
  "    \twrite a <output>.lst disassembly listing",
  "  -max-steps int",
  "    \tstop run after this many instructions (0 = unlimited)",
  "  -v\tincrease log verbosity (repeatable)",
  ""])

/-- What is wrong with the value of a switch: the counting switch names the word itself. -/
def switchReason (value : Bytes) (flag : Flag) : Bytes :=
  if flag = .verbosity then
    Bytes.ofString "strconv.ParseBool: parsing " ++ Text.quote value ++ Bytes.ofString ": invalid syntax"
  else Bytes.ofString "parse error"

/-- What is wrong with a numeral. -/
def numberReason : Number.NumeralError → Bytes
  | .malformed => Bytes.ofString "parse error"
  | .outOfRange => Bytes.ofString "value out of range"

/-- The line that says what is wrong, empty if there is none. -/
def line : Refusal → Bytes
  | help | noCommand => []
  | badSyntax argument => Bytes.ofString "bad flag syntax: " ++ argument ++ [0x0a]
  | unknownFlag name => Bytes.ofString "flag provided but not defined: -" ++ name ++ [0x0a]
  | missingValue flag => Bytes.ofString "flag needs an argument: -" ++ flag.name ++ [0x0a]
  | badSwitch value flag =>
    Bytes.ofString "invalid boolean value " ++ Text.quote value ++ Bytes.ofString " for -" ++ flag.name ++
      Bytes.ofString ": " ++ switchReason value flag ++ [0x0a]
  | badNumber value flag reason =>
    Bytes.ofString "invalid value " ++ Text.quote value ++ Bytes.ofString " for flag -" ++ flag.name ++
      Bytes.ofString ": " ++ numberReason reason ++ [0x0a]
  | unknownCommand name => Bytes.ofString "unknown command " ++ Text.quote name ++ [0x0a]
  | compilePaths => Bytes.ofString "compile takes an input path and an optional output path\n"
  | binaryPaths command => command ++ Bytes.ofString " takes exactly one binary path\n"

/-- The usage follows, unless the command was right and only its paths were not. -/
def showsUsage : Refusal → Bool
  | compilePaths | binaryPaths _ => false
  | _ => true

/-- The text for the user. -/
def message (r : Refusal) : Bytes := r.line ++ if r.showsUsage then usage else []

end Refusal

/-! ## Reading -/

/-- The truth value that a word stands for. -/
def truth? (word : Bytes) : Option Bool :=
  if (["1", "t", "T", "true", "TRUE", "True"].map Bytes.ofString).contains word then some true
  else if (["0", "f", "F", "false", "FALSE", "False"].map Bytes.ofString).contains word then some false
  else none

/-- The options with one of them set. A switch that counts is counted when it is on. -/
def Options.set (o : Options) (flag : Flag) (value : Bytes) : Except Refusal Options :=
  let switch (apply : Bool → Options) : Except Refusal Options :=
    match truth? value with
    | some b => .ok (apply b)
    | none => .error (.badSwitch value flag)
  match flag with
  | .verbosity => switch fun b => if b then { o with verbosity := o.verbosity + 1 } else o
  | .debugInfo => switch fun b => { o with debugInfo := b }
  | .listing => switch fun b => { o with listing := b }
  | .settingsPath => .ok { o with settingsPath := value }
  | .maxSteps =>
    match Number.readLiteral (Utf8.chars value) with
    | .ok n => .ok { o with maxSteps := n }
    | .error reason => .error (.badNumber value flag reason)

/-- What an argument is where an option may stand. -/
inductive Argument where
  /-- No option. -/
  | plain
  /-- The end of the options. -/
  | terminator
  | malformed
  | option (name : Bytes) (value : Option Bytes)
  deriving DecidableEq, Repr

/-- The hyphen before an option. -/
def hyphen : UInt8 := 0x2d

/-- The sign between an option and its value. -/
def equals : UInt8 := 0x3d

/-- The name and the value of an option without its hyphens; the first byte always belongs to the name. -/
def Argument.ofOption : Bytes → Argument
  | [] => .malformed
  | first :: rest =>
    if first = hyphen ∨ first = equals then .malformed
    else
      let name := first :: rest.takeWhile (· ≠ equals)
      match rest.dropWhile (· ≠ equals) with
      | [] => .option name none
      | _ :: value => .option name (some value)

/-- What an argument is where an option may stand. A lone hyphen is none. -/
def Argument.ofBytes (argument : Bytes) : Argument :=
  match argument with
  | first :: second :: rest =>
    if first ≠ hyphen then .plain
    else if second ≠ hyphen then .ofOption (second :: rest)
    else if rest.isEmpty then .terminator
    else .ofOption rest
  | _ => .plain

/-- Reads options up to the first argument that is none. -/
def readOptions (o : Options) : List Bytes → Except Refusal (Options × List Bytes)
  | [] => .ok (o, [])
  | argument :: rest =>
    match Argument.ofBytes argument with
    | .plain => .ok (o, argument :: rest)
    | .terminator => .ok (o, rest)
    | .malformed => .error (.badSyntax argument)
    | .option name value =>
      match Flag.ofName? name with
      | none => .error (if name = Bytes.ofString "help" ∨ name = Bytes.ofString "h" then .help else .unknownFlag name)
      | some flag =>
        match value, flag.isSwitch, rest with
        | some value, _, rest => do readOptions (← o.set flag value) rest
        | none, true, rest => do readOptions (← o.set flag (Bytes.ofString "true")) rest
        | none, false, value :: rest => do readOptions (← o.set flag value) rest
        | none, false, [] => .error (.missingValue flag)

/-- The extension of a compiled program. -/
def binaryExtension : Bytes := Bytes.ofString ".o0"

/-- The task that a command with its paths is. -/
def readTask : List Bytes → Except Refusal Task
  | [] => .error .noCommand
  | command :: paths =>
    if command = Bytes.ofString "compile" then
      match paths with
      | [input] => .ok (.compile input (Path.replaceExtension input binaryExtension))
      | [input, output] => .ok (.compile input output)
      | _ => .error .compilePaths
    else if command = Bytes.ofString "disasm" then
      match paths with
      | [path] => .ok (.disassemble path)
      | _ => .error (.binaryPaths command)
    else if command = Bytes.ofString "run" then
      match paths with
      | [path] => .ok (.run path)
      | _ => .error (.binaryPaths command)
    else .error (.unknownCommand command)

/-- What a command line asks for. -/
def Invocation.ofArguments (arguments : List Bytes) : Except Refusal Invocation := do
  let (options, rest) ← readOptions {} arguments
  return { options, task := ← readTask rest }

end OnePass
