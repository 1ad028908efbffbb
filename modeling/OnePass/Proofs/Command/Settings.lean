import OnePass.Command.Perform
import OnePass.Proofs.Binary.RoundTrip

/-!
# The settings that apply

Where a source is compiled the settings are those of one text, or the defaults (`Options.SettingsText`). Which outputs a text
switches on is said of its document: the last value of the output's name counts (`Settings.SwitchesOn`, `Settings.isOn_of_read`).
-/

namespace OnePass

/-- A failure with another wording is still a failure. -/
theorem mapError_ok_iff {α ε ε' : Type} {f : ε → ε'} {x : Except ε α} {a : α} : x.mapError f = .ok a ↔ x = .ok a := by
  cases x with
  | ok b => exact ⟨fun h => congrArg _ (Except.ok.inj h), fun h => congrArg _ (Except.ok.inj h)⟩
  | error e => constructor <;> rintro ⟨⟩

namespace Settings

variable {s s' : Settings} {field : Field} {name : String} {part : Bytes}

/-! ## Values in a document -/

/-- The values that a table gives to a name, in its order. Names are taken in any case. -/
def values (entries : Toml.Table) (name : String) : List Toml.Node :=
  entries.flatMap fun entry => if sameName name entry.1 then [entry.2] else []

/-- The values that a document gives to a name in its tables of another name. -/
def valuesIn (root : Toml.Table) (group name : String) : List Toml.Node :=
  (values root group).flatMap fun
    | .table entries => values entries name
    | _ => []

/-- The text switches the output of this name on: of the values that it gives to the name in a table `output` the last one is
`true`. -/
def SwitchesOn (text : Bytes) (name : String) : Prop :=
  ∃ d, Toml.Document.read text = some d ∧ (valuesIn d.root "output" name).getLast? = some (.boolean true)

/-- The settings that switch an output on, with their names in a table `output`. -/
inductive IsSwitch : Field → String → Prop where
  | debugInfo : IsSwitch .debugInfo "debug_info"
  | listing : IsSwitch .listing "listing"

/-- The output of a setting is switched on. -/
def isOn (s : Settings) : Field → Bool
  | .debugInfo => s.debugInfo
  | .listing => s.listing
  | _ => false

/-- The value is `true`. -/
def isTrue : Toml.Node → Bool
  | .boolean b => b
  | _ => false

/-- The last of the values if there is one, and what was known before if there is none. -/
def latest (old : Bool) (values : List Toml.Node) : Bool := (values.getLast?.map isTrue).getD old

theorem latest_append (old : Bool) (vs ws : List Toml.Node) : latest old (vs ++ ws) = latest (latest old vs) ws := by
  cases hws : ws.getLast? <;> simp [latest, hws]

end Settings

/-! ## The text that applies -/

variable {t : FileTree} {path source output text : Bytes} {s : Settings} {i : Invocation} {applied : Option Bytes}

/-- The text that applies can be read, and these settings switch on what it switches on. -/
structure Settings.Follows (s : Settings) (applied : Option Bytes) : Prop where
  readable : ∀ text ∈ applied, ∃ s, read text = .ok s
  isOn_iff : ∀ {field name}, IsSwitch field name → (s.isOn field = true ↔ ∃ text ∈ applied, SwitchesOn text name)

end OnePass
