import CallLedger.Config.Codec
import CallLedger.Error
import CallLedger.Toml.Reader

/-!
# Configuration files

A configuration file is TOML. Its measure mode may also be written as a table whose only key is
the name of the mode, with an empty table or list under it.
-/

namespace CallLedger.Config

/-- An empty table or list. -/
def isEmptyTable : Data → Bool
  | .record [] | .list [] => true
  | _ => false

/-- In a configuration file an empty table holds nothing, and names are texts. -/
def dialect : Dialect := ⟨isEmptyTable, false⟩

/-- Rejects a configuration that no session can be made with. -/
def validate (config : Config) : Except ConfigError Config :=
  if config.isValid then .ok config else .error .noStackCapacity

def ofToml (text : String) : Except ConfigError Config :=
  match (Toml.read? text.toList).bind (ofData? dialect) with
  | some config => config.validate
  | none => .error .malformed

end CallLedger.Config
