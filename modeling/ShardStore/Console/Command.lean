import ShardStore.Console.Settings
import ShardStore.Mesh.Start
/-!
The agent program on its own host, and that host's sockets.

The host can bind its loopback addresses and the wildcard address, but its network is down:
nothing can be connected to, not even its own listening sockets. Two sockets clash when they
share a socket number and an address, the wildcard address sharing every address.

The program reads its command line and its settings, and starts an agent with them: it makes the
agent with its filter bundles, binds the agent's address and its responder's, and joins the seed
if there is one, which always fails here. A command line that cannot be read ends the program
with status 2, help and version with status 0; settings that cannot be had or an agent that
cannot start end it with status 1 and an error report naming what was being done, the chain of
causes and the call stack it was met on. An agent that starts serves until it is stopped, and a
request sent to it cannot be delivered.
-/

namespace ShardStore

namespace Console

/-- Why connecting fails on this host. -/
def networkDown : String := "Network is unreachable (os error 101)"

/-- Binding a socket that is taken. -/
def addressInUse : Fault := .io "Address already in use (os error 98)"

/-- Binding an address the host does not have. -/
def addressUnavailable : Fault := .io "Cannot assign requested address (os error 99)"

/-- Whether the host can bind an address: a loopback or the wildcard address. -/
def bindable (a : Address) : Bool := a.ip >>> 24 == 127 || a.ip == 0

/-- Whether two addresses' sockets clash. -/
def clash (a b : Address) : Bool := a.tcpPort == b.tcpPort && (a.ip == b.ip || a.ip == 0 || b.ip == 0)

/-- Bind an address among those bound. -/
def bindSocket (bound : List Address) (a : Address) : Outcome (List Address) :=
  if !bindable a then .error addressUnavailable
  else if bound.any (clash a) then .error addressInUse
  else .ok (bound ++ [a])

/-- Start an agent alone on the host, with sockets already bound by others. -/
def startAlone (cfg : AgentConfig) (bound : List Address) : Outcome Unit := do
  let _ ← Node.make (cfg.nodeConfig 0) Catalog.builtin cfg.bind
  let bound ← bindSocket bound cfg.bind
  let _ ← bindSocket bound cfg.bind.responder
  if let some s := cfg.seed then throw (.unreachable s networkDown)

/-- A fault's message and those of the errors it wraps. -/
def causes (f : Fault) : List String :=
  match f with
  | .decode e => [f.message, e.message]
  | .io s | .json s => [f.message, s]
  | _ => [f.message]

/-- The call stack an error report shows, below the frame that added the report's context,
which is written with the type of that context. -/
def stackBelow (context : String) : List String :=
  ["0: <pando::error::PandoError as anyhow::context::ext::StdError>::ext_context::<" ++ context ++
    ">",
   "1: pando_agent::main",
   "2: std::sys::backtrace::__rust_begin_short_backtrace::<fn() -> core::result::Result<(), " ++
    "anyhow::Error>, core::result::Result<(), anyhow::Error>>",
   "3: std::rt::lang_start::<core::result::Result<(), anyhow::Error>>::\x7bclosure#0\x7d",
   "4: std::rt::lang_start_internal", "5: main", "6: <unknown>", "7: __libc_start_main",
   "8: _start"]

/-- The lines of an error report: what was being done, the causes, numbered when there are
several, and the call stack. -/
def reportLines (doing : String) (cs : List String) (context : String) : List String :=
  let shown := match cs with
    | [c] => [c]
    | _ => cs.zipIdx.map fun (c, i) => s!"{i}: {c}"
  ["Error: " ++ doing, "Caused by:"] ++ shown ++ ["Stack backtrace:"] ++ stackBelow context

/-- An error report as JSON. -/
def report (doing : String) (cs : List String) (context : String) : Json :=
  .arr ((reportLines doing cs context).map .str)

/-- The causes of settings that could not be had. -/
def settingsCauses : SettingsError → List String
  | .document why => ["configuration error: " ++ why]
  | .fault f => causes f

/-- How the program ended: its status, its error report, and the answer to the request sent to
it. -/
def ending (status : Nat) (error served : Json) : Json :=
  Json.record [("exit", .nat status), ("error", error), ("served", served)]

/-- Run the program with a command line and a settings document, with a socket bound by someone
else when the request says so, and send a request to the agent when asked. -/
def cliOp (req : Json) : Answer Json := do
  let doc ← documentOf req
  let args ← match opt req "args" with
    | some a => strs a
    | none => pure []
  let bound ← match opt req "occupy" with
    | some a => do pure [← address a]
    | none => pure []
  let serve ← match opt req "serve" with
    | some a => do pure (some (← address a))
    | none => pure none
  match Flags.parse (commandLine doc args) with
  | .error .displayHelp | .error .displayVersion => pure (ending 0 (.arr []) .null)
  | .error _ => pure (ending 2 .null .null)
  | .ok flags =>
    match AgentConfig.fromFlags (readSettings doc) flags with
    | .error e => pure (ending 1 (report "loading agent config" (settingsCauses e) "&str") .null)
    | .ok cfg =>
      match startAlone cfg bound with
      | .error f =>
        pure (ending 1 (report s!"starting agent at {cfg.bind.render}" (causes f)
          "alloc::string::String") .null)
      | .ok _ =>
        let served := match serve with
          | some a => faultJson (.unreachable a networkDown)
          | none => .null
        pure (ending 0 (.arr []) served)

/-- A session with the host's sockets: binding works, and sending anything fails. Sending raw
bytes fails the whole session. -/
def tcpOp (req : Json) : Answer Json := do
  let (results, _) ← (← listD req "steps").foldlM (fun (acc : List Json × List Address) j => do
    let (results, bound) := acc
    let a ← address (← field j "addr")
    match ← str (← field j "op") with
    | "bind" =>
      match bindSocket bound a with
      | .ok bound => pure (results ++ [.str "bound"], bound)
      | .error f => pure (results ++ [faultJson f], bound)
    | "unbind" => pure (results ++ [.null], bound.filter (· != a))
    | "request" | "push" => pure (results ++ [faultJson (.unreachable a networkDown)], bound)
    | "raw_send" => refuse networkDown
    | other => refuse s!"unknown op {other}") ([], [])
  pure (Json.record [("results", .arr results)])

end Console

end ShardStore
