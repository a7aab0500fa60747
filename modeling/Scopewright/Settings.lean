import Scopewright.Log
import Scopewright.Number.Whole
import Scopewright.Payload
import Scopewright.Validation.Validate

/-! # Settings

What a client can set (`Settings`).  Settings come as untyped data, and each field is narrowed on
its own: one that is missing or of another kind keeps the value it had (`Settings.update`). -/

namespace Scopewright

/-- What a client can set. -/
structure Settings where
  /-- Directories that hold one directory per package. -/
  packagesPaths : List Text
  /-- The least serious level that is logged. -/
  logLevel : Log.Level
  maxCompletionItems : Nat
  validation : Validation.Checks
deriving DecidableEq, Inhabited

namespace Settings

/-- The settings of a client that sets nothing. -/
def initial : Settings := ⟨[], .info, 200, .all⟩

/-- The checks with those fields replaced that are booleans. -/
def updateChecks (checks : Validation.Checks) (value : Payload) : Validation.Checks :=
  let flag (name : Text) (kept : Bool) : Bool := ((value.field? name).bind Payload.bool?).getD kept
  ⟨flag "unknownKeys" checks.unknownKeys, flag "unknownScopes" checks.unknownScopes,
    flag "invalidValues" checks.invalidValues⟩

/-- A positive whole number. -/
def count? (value : Payload) : Option Nat :=
  ((value.number?.bind Number.whole?).filter fun n => decide (0 < n)).map Int.toNat

/-- The settings with those fields replaced that the data have in the right form. -/
def update (s : Settings) (value : Payload) : Settings where
  packagesPaths :=
    match (value.field? "packagesPaths").bind Payload.items? with
    | some items => (items.filterMap Payload.text?).filter fun p => !p.isEmpty
    | none => s.packagesPaths
  logLevel := ((value.textField? "logLevel").bind Log.Level.ofName?).getD s.logLevel
  maxCompletionItems := ((value.field? "maxCompletionItems").bind count?).getD s.maxCompletionItems
  validation := updateChecks s.validation ((value.objectField? "validation").getD .null)

/-- The section of this server in the settings of a client. -/
def sectionName : Text := "syntaxDev"

/-- A section of the settings in a notice that they have changed. -/
def section? (payload : Payload) (name : Text) : Option Payload :=
  (payload.objectField? "settings").bind (·.field? name)

end Settings
end Scopewright
