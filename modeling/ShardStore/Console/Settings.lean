import ShardStore.Console.Form
import ShardStore.Config.Load
import ShardStore.Mesh.Disk
/-!
Agent settings as a session sees them.

A request gives a settings document, a command line, or both; the command line then reads the
document as its settings file, named before any other argument. Without a command line the
document alone is read and the answer shows whether the settings it gives are valid; with one,
invalid settings are the answer's error. A document that does not hold settings is refused with
an error object that names the YAML stage and gives no message, and a command line that cannot
be read with the kind of problem.
-/

namespace ShardStore

namespace Console

/-- The name the settings document goes by on a command line. -/
def settingsPath : String := "agent.yaml"

/-- The command line an agent sees: the settings file first when there is a document. -/
def commandLine (doc : Option String) (args : List String) : List String :=
  (if doc.isSome then ["--config", settingsPath] else []) ++ args

/-- Read a settings file: the document under its name, and no other file. -/
def readSettings (doc : Option String) (path : String) : Outcome String :=
  match doc with
  | some text => if path == settingsPath then .ok text else .error Disk.notFound
  | none => .error Disk.notFound

/-- The refusal of a document that does not hold settings. -/
def documentError : Json :=
  Json.record [("code", .str "INTERNAL_ERROR"), ("error", .str "PandoError::Config"),
    ("stage", .str "yaml")]

/-- The refusal of a command line. -/
def flagErrorJson (e : FlagError) : Json := Json.record [("error", .str ("clap::" ++ e.kindName))]

/-- A duration in milliseconds as whole microseconds, wrapping at 64 bits. -/
def micros (ms : UInt64) : Nat := (ms.toNat * 1000) % Nat.pow 2 64

/-- Settings as JSON, with whether they are valid; `detailed` adds whether the budget is left to
the machine and the durations in microseconds. -/
def settingsJson (c : AgentConfig) (valid : Json) (detailed : Bool) : Json :=
  let budget := (c.budget?.map fun b => Json.nat b.toNat).getD .null
  Json.record ([("bind", addressJson c.bind), ("seed", (c.seed.map addressJson).getD .null),
    ("memory_gb", (c.memoryGb.map .float).getD .null),
    ("skip_group_filters", .bool c.skipGroups), ("filter_bundles", .arr (c.bundles.map .str)),
    ("virtual_agents", .nat c.vnodes.toNat), ("heartbeat_interval_ms", .nat c.heartbeatMs.toNat),
    ("poll_timeout_ms", .nat c.pollMs.toNat), ("request_timeout_ms", .nat c.requestMs.toNat),
    ("hb_rounds", .nat c.hbRounds.toNat), ("budget_bytes", budget), ("valid", valid)] ++
    (if detailed then
      [("budget_detected", .bool c.memoryGb.isNone),
       ("heartbeat_interval_us", .nat (micros c.heartbeatMs)),
       ("poll_timeout_us", .nat (micros c.pollMs)),
       ("request_timeout_us", .nat (micros c.requestMs))]
    else []))

/-- Whether settings are valid, as JSON. -/
def validJson (c : AgentConfig) : Json :=
  match c.validate with
  | .ok _ => .bool true
  | .error f => faultJson f

/-- The settings document of a request, if it has one. -/
def documentOf (req : Json) : Answer (Option String) :=
  match opt req "yaml" with
  | some y => do return some (← str y)
  | none => pure none

/-- A settings session: read the document or the command line and show the settings. An
address given as `override_bind` replaces the bound address after reading, unchecked. -/
def configOp (req : Json) : Answer Json := do
  let doc ← documentOf req
  let override ← match opt req "override_bind" with
    | some j => do pure (some (← address j))
    | none => pure none
  let withOverride := fun (c : AgentConfig) => match override with
    | some a => { c with bind := a }
    | none => c
  match opt req "args" with
  | none =>
    let c ← match doc with
      | some text =>
        match AgentConfig.ofText text with
        | .ok c => pure c
        | .error _ => .error documentError
      | none => pure AgentConfig.default
    let c := withOverride c
    pure (settingsJson c (validJson c) override.isSome)
  | some a =>
    let flags ← match Flags.parse (commandLine doc (← strs a)) with
      | .ok f => pure f
      | .error e => .error (flagErrorJson e)
    match AgentConfig.fromFlags (readSettings doc) flags with
    | .ok c => pure (settingsJson (withOverride c) (.bool true) override.isSome)
    | .error (.document _) => .error documentError
    | .error (.fault f) => .error (faultJson f)

end Console

end ShardStore
