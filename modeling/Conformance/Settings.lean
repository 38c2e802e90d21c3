import Conformance.Json.Record
import Conformance.Policy

/-!
# Settings of a validator

Which of the built-in policies decides leaves, how many rejections a check
reports, and how deep a value may nest. Settings are read from a JSON record
with a default for every field that is missing.
-/

namespace Conformance

/-- The built-in policies. -/
inductive PolicyKind where
  /-- No value is changed. -/
  | strict
  /-- Text is read as numbers and truth values. -/
  | nonStrict
  deriving DecidableEq

/-- How many rejections a check reports. -/
inductive Mode where
  /-- The first one. -/
  | failFast
  /-- Those of every item, field and entry. -/
  | collectAll
  deriving DecidableEq

/-- Why the text of a setting was refused. -/
inductive SettingsError where
  /-- No policy has this name. -/
  | unknownPolicy (name : String)
  /-- No mode has this name. -/
  | unknownMode (name : String)

/-- The wording of a refusal. -/
def SettingsError.message : SettingsError → String
  | .unknownPolicy name => "unknown validation policy: " ++ Text.quote name
  | .unknownMode name => "unknown error mode: " ++ Text.quote name

namespace PolicyKind

/-- The name of a policy in settings. -/
def render : PolicyKind → String
  | .strict => "strict"
  | .nonStrict => "non-strict"

/-- Reads the name of a policy. -/
def parse (name : String) : Except SettingsError PolicyKind :=
  if name = "strict" then .ok .strict
  else if name = "non-strict" then .ok .nonStrict
  else .error (.unknownPolicy name)

/-- The policy of a kind. -/
def policy : PolicyKind → Policy
  | .strict => .strict
  | .nonStrict => .nonStrict

end PolicyKind

namespace Mode

/-- The name of a mode in settings. -/
def render : Mode → String
  | .failFast => "fail-fast"
  | .collectAll => "collect-all"

/-- Reads the name of a mode. -/
def parse (name : String) : Except SettingsError Mode :=
  if name = "fail-fast" then .ok .failFast
  else if name = "collect-all" then .ok .collectAll
  else .error (.unknownMode name)

end Mode

/-- The nesting that validators accept unless told otherwise. -/
def defaultMaxDepth : Nat := 128

/-- The settings of a validator. -/
structure Settings where
  /-- The policy for leaves. -/
  policy : PolicyKind := .strict
  /-- How many rejections are reported. -/
  mode : Mode := .failFast
  /-- How deep a value may nest. -/
  maxDepth : Nat := defaultMaxDepth
  deriving DecidableEq

namespace Settings

/-- The compact JSON text of settings. -/
def render (settings : Settings) : String :=
  "\x7b\"policy\":\"" ++ settings.policy.render ++ "\",\"error_mode\":\""
    ++ settings.mode.render ++ "\",\"max_depth\":" ++ toString settings.maxDepth ++ "\x7d"

/-- The names of the settings, in the order in which a list has them. -/
def fieldNames : List String := ["policy", "error_mode", "max_depth"]

/-- Reads one setting: the default if the field is missing. -/
def readField {α : Type} (name : String) (default : α) (read : Json → Option α)
    (entries : List (String × Json)) : Option α :=
  match Entries.lookup name entries with
  | none => some default
  | some value => read value

/-- Reads the choice of a policy from JSON. -/
def policyOf? (value : Json) : Option PolicyKind :=
  value.choice?.bind fun name => (PolicyKind.parse name).toOption

/-- Reads the choice of a mode from JSON. -/
def modeOf? (value : Json) : Option Mode :=
  value.choice?.bind fun name => (Mode.parse name).toOption

/-- Reads a limit from JSON: an integer that is not negative. -/
def limitOf? : Json → Option Nat
  | .number (.int n _) => if 0 ≤ n then some n.toNat else none
  | _ => none

/-- Reads settings from a JSON record. A missing field has its default and an
unknown key is passed over. -/
def ofJson? (value : Json) : Option Settings := do
  let entries ← value.recordEntries? fieldNames
  let policy ← readField "policy" .strict policyOf? entries
  let mode ← readField "error_mode" .failFast modeOf? entries
  let maxDepth ← readField "max_depth" defaultMaxDepth limitOf? entries
  some ⟨policy, mode, maxDepth⟩

end Settings

end Conformance
