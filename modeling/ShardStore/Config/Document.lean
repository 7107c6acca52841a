import ShardStore.Config.Agent
import ShardStore.Config.Yaml
/-!
Agent settings read from a YAML document.

The document is a mapping from setting names to values; a setting left out keeps its default,
an unknown or repeated name is refused, and an empty document describes the defaults. A sequence
gives the settings by position instead, in the order of `fieldNames`, again with defaults for
those left out.

Each value is read by the type of its setting. An address is the text of any scalar read as
`ip,slot`. An optional setting is absent when its value is null. A number is an unquoted integer
or float, and a whole number must be an unquoted integer within the range of its setting. A
flag is an unquoted boolean. A list of names is a sequence of scalars, or empty when the value
is empty.
-/

namespace ShardStore

namespace AgentConfig

/-- The names of the settings, in the order a sequence gives them. -/
def fieldNames : List String :=
  ["bind", "seed", "memory_gb", "skip_group_filters", "filter_bundles", "virtual_agents",
   "heartbeat_interval_ms", "poll_timeout_ms", "request_timeout_ms", "hb_rounds"]

/-- Whether a node is null: an unquoted `~`, `null` in one of three spellings, or nothing. -/
def isNull : Yaml → Bool
  | .scalar s true => ["", "~", "null", "Null", "NULL"].contains s
  | _ => false

/-- The text of a scalar, quoted or not. -/
def textOf : Yaml → Except String String
  | .scalar s _ => pure s
  | _ => throw "expected a string"

/-- An address written as text. -/
def addressOf (y : Yaml) : Except String Address := do
  let s ← textOf y
  match Address.parse? s with
  | some a => pure a
  | none => throw s!"invalid address {s}"

/-- A number: an unquoted integer, rounded to the nearest double, or an unquoted float. -/
def numberOf : Yaml → Except String Float
  | .scalar s true =>
    match Yaml.resolve s with
    | .int i =>
      let f := Decimal.nearest i.natAbs 0
      pure (if i < 0 then -f else f)
    | .float f => pure f
    | _ => throw "expected a number"
  | _ => throw "expected a number"

/-- A whole number below a bound. -/
def wordOf (bound : Nat) : Yaml → Except String Nat
  | .scalar s true =>
    match Yaml.resolve s with
    | .int i => if 0 ≤ i ∧ i < bound then pure i.toNat else throw "integer out of range"
    | _ => throw "expected an integer"
  | _ => throw "expected an integer"

/-- A boolean. -/
def flagOf : Yaml → Except String Bool
  | .scalar s true =>
    match Yaml.resolve s with
    | .bool b => pure b
    | _ => throw "expected a boolean"
  | _ => throw "expected a boolean"

/-- A list of names. -/
def namesOf : Yaml → Except String (List String)
  | .seq items => items.mapM textOf
  | .scalar "" true => pure []
  | _ => throw "expected a sequence"

/-- Set one setting by name. -/
def setField (c : AgentConfig) (name : String) (v : Yaml) : Except String AgentConfig :=
  match name with
  | "bind" => do pure { c with bind := ← addressOf v }
  | "seed" =>
    if isNull v then pure { c with seed := none }
    else do pure { c with seed := some (← addressOf v) }
  | "memory_gb" =>
    if isNull v then pure { c with memoryGb := none }
    else do pure { c with memoryGb := some (← numberOf v) }
  | "skip_group_filters" => do pure { c with skipGroups := ← flagOf v }
  | "filter_bundles" => do pure { c with bundles := ← namesOf v }
  | "virtual_agents" => do pure { c with vnodes := UInt16.ofNat (← wordOf (Nat.pow 2 16) v) }
  | "heartbeat_interval_ms" => do
    pure { c with heartbeatMs := UInt64.ofNat (← wordOf (Nat.pow 2 64) v) }
  | "poll_timeout_ms" => do pure { c with pollMs := UInt64.ofNat (← wordOf (Nat.pow 2 64) v) }
  | "request_timeout_ms" => do pure { c with requestMs := UInt64.ofNat (← wordOf (Nat.pow 2 64) v) }
  | "hb_rounds" => do pure { c with hbRounds := UInt32.ofNat (← wordOf (Nat.pow 2 32) v) }
  | other => throw s!"unknown field {other}"

/-- Settings from a YAML node. -/
def ofYaml : Yaml → Except String AgentConfig
  | .map entries => do
    let (c, _) ← entries.foldlM (fun (acc : AgentConfig × List String) (k, v) => do
      let name ← textOf k
      if acc.2.contains name then throw s!"duplicate field {name}"
      pure (← setField acc.1 name v, name :: acc.2)) (default, [])
    pure c
  | .seq items =>
    if items.length > fieldNames.length then throw "too many settings"
    else (fieldNames.zip items).foldlM (fun c (name, v) => setField c name v) default
  | .scalar "" true => pure default
  | _ => throw "expected a mapping"

/-- Settings from the text of a YAML document. -/
def ofText (text : String) : Except String AgentConfig := do ofYaml (← Yaml.read text)

end AgentConfig

end ShardStore
