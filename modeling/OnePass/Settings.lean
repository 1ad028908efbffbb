import OnePass.Toml.Document

/-!
# Settings

What a settings file may say: how much is logged and where, and which files are written beside a compiled program. The names of
the settings are taken in any case, and a name that is not known is an error.
-/

namespace OnePass

/-- The settings. -/
structure Settings where
  verbosity : Int64 := 0
  /-- The file that the log is written to, the standard error if it is empty. -/
  logFile : Bytes := []
  debugInfo : Bool := false
  listing : Bool := false
  deriving DecidableEq, Repr, Inhabited

/-- Why a text holds no settings. -/
inductive SettingsError where
  /-- The text is no TOML, or a setting has a value of another type. -/
  | malformed
  | unknownKeys (keys : List Toml.Key)
  | negativeVerbosity (n : Int64)
  deriving DecidableEq, Repr

namespace SettingsError

/-- The wording of the errors that have one. -/
def message? : SettingsError → Option Bytes
  | malformed => none
  | unknownKeys keys => some (Bytes.ofString "unknown keys: " ++ Bytes.join (Bytes.ofString ", ") (keys.map Toml.keyText))
  | negativeVerbosity n => some (Bytes.ofString "log.verbosity must not be negative, got " ++ Bytes.ofInt n.toInt)

end SettingsError

namespace Settings

/-- A character without regard to case; beside the Latin letters there are two characters with the lower case of one. -/
def fold (c : Char) : Char := if c.toNat = 0x17f then 's' else if c.toNat = 0x212a then 'k' else c.toLower

/-- The two names differ in case at most. -/
def sameName (name : String) (part : Bytes) : Bool := name.toList == (Utf8.chars part).map fold

/-- A setting. -/
inductive Field where
  | verbosity
  | logFile
  | debugInfo
  | listing
  deriving DecidableEq, Repr

/-- A table of settings. -/
inductive Group where
  | log
  | output
  deriving DecidableEq, Repr

/-- The table that a name stands for. -/
def group? (part : Bytes) : Option Group :=
  if sameName "log" part then some .log else if sameName "output" part then some .output else none

/-- The setting that a name of a table stands for. -/
def field? (group : Group) (part : Bytes) : Option Field :=
  match group with
  | .log => if sameName "verbosity" part then some .verbosity else if sameName "file" part then some .logFile else none
  | .output => if sameName "debug_info" part then some .debugInfo else if sameName "listing" part then some .listing else none

/-- The key stands for a table or for a setting, and the document still has it: one that was replaced counts for nothing. -/
def isKnown (root : Toml.Table) : Toml.Key → Bool
  | [part] => (group? part).isSome && (root.lookup part).isSome
  | [part, name] => ((group? part).bind (field? · name)).isSome && ((root.at? [part]).bind (·.lookup name)).isSome
  | _ => false

/-- The settings with one of them set, if the value has its type. -/
def assign (s : Settings) : Field → Toml.Node → Option Settings
  | .verbosity, .integer n => some { s with verbosity := n }
  | .logFile, .text b => some { s with logFile := b }
  | .debugInfo, .boolean b => some { s with debugInfo := b }
  | .listing, .boolean b => some { s with listing := b }
  | _, _ => none

/-- The settings with those of a table set. -/
def assignAll (s : Settings) (group : Group) (entries : Toml.Table) : Option Settings :=
  entries.foldlM (fun s (name, node) =>
    match field? group name with
    | some field => s.assign field node
    | none => some s) s

/-- The settings that a document makes. Where a document holds two spellings of one key, such as `listing` and `Listing`, nothing
says which of them counts; here they are taken in the order in which they stand, so that the last one does. -/
def ofTable (root : Toml.Table) : Option Settings :=
  root.foldlM (fun s (part, node) =>
    match group? part, node with
    | none, _ => some s
    | some group, .table entries => s.assignAll group entries
    | some _, _ => none) {}

/-- The settings of a text. An unknown key is reported before a value out of range. -/
def read (text : Bytes) : Except SettingsError Settings := do
  let some d := Toml.Document.read text | throw .malformed
  let some s := ofTable d.root | throw .malformed
  let unknown := d.keys.filter fun key => !isKnown d.root key
  if !unknown.isEmpty then throw (.unknownKeys unknown)
  if s.verbosity < 0 then throw (.negativeVerbosity s.verbosity)
  return s

end Settings

end OnePass
