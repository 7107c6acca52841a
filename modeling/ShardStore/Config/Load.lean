import ShardStore.Config.Document
import ShardStore.Config.Flags
/-!
The settings an agent starts with, from its command line.

The settings file named by the command line, when there is one, gives the settings to start
from; otherwise they start from the defaults. The flags are laid over them and the result is
checked. Reading the file, reading its YAML and checking the result are the three ways this can
fail, and they are kept apart because they are reported differently.
-/

namespace ShardStore

/-- Why the settings of a command line could not be had. -/
inductive SettingsError where
  /-- The settings file does not hold settings. -/
  | document (why : String)
  /-- The settings file could not be read, or the settings are out of range. -/
  | fault (f : Fault)

namespace AgentConfig

/-- The settings of a command line, reading the settings file with `readFile`. -/
def fromFlags (readFile : String → Outcome String) (f : Flags) :
    Except SettingsError AgentConfig := do
  let base ← match f.config with
    | none => pure default
    | some path =>
      match readFile path with
      | .error e => throw (.fault e)
      | .ok text =>
        match ofText text with
        | .ok c => pure c
        | .error why => throw (.document why)
  let c := f.apply base
  match c.validate with
  | .ok _ => pure c
  | .error e => throw (.fault e)

end AgentConfig

end ShardStore
