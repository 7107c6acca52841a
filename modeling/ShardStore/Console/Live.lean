import ShardStore.Console.MeshSession
import ShardStore.Mesh.Start
/-!
A session with agents that run on their own, as started processes do.

The request names the agents and their common settings. The agents are started in order, the
first without a seed and every other one through the first, or all through a seed the request
names; an agent that cannot start is reported and left out. A running agent handles what it is
sent until nothing is left, and stops at its first fatal fault.

Once started, the session tells whether every running agent knows every other, then runs client
calls through a client whose entry agent is the first running agent; a `process` call starts a
run and waits until it is over. The answer ends with every started agent's entries, unless the
request turns that off, and with how each agent stopped: the fault that stopped it, or a clean
stop, the last agent being waited for rather than told to stop.
-/

namespace ShardStore

namespace Console

/-- The error object of an agent that could not start, with whether its fault is fatal and
whether it is about reaching an agent. -/
def startFaultJson (f : Fault) : Json :=
  Json.record [("code", .str f.code), ("error", .str ("PandoError::" ++ f.kindName)),
    ("message", .str f.message), ("fatal", .bool f.isFatal), ("routing", .bool f.isRouting)]

/-- Start an agent: the mesh with it running, or the fault that kept it from starting. -/
def startAgent (catalog : Catalog) (m : Mesh) (cfg : AgentConfig) : Outcome Mesh :=
  (m.start cfg (Budget.ofGb 0.5).toNat catalog).map Mesh.settle

/-- An agent by its number in the request or by its address. -/
def liveRef (addrs : List Address) (j : Json) : Answer Address :=
  match j with
  | .nat i =>
    match addrs[i]? with
    | some a => pure a
    | none => refuse s!"no agent {i}"
  | other => address other

/-- Start a run at the synchronizer, let it go to its end, and check the synchronizer is idle. -/
def processRun (c : Client) : MeshM (Outcome Json × Client) := do
  let (r, c) ← Client.process Agent.call c
  match r with
  | .error e => pure (.error e, c)
  | .ok _ =>
    let _ ← Mesh.deliver
    let (r, c) ← Client.waitIdle Agent.call c 1
    pure (r.map fun _ => .bool true, c)

/-- Run one client call and let the agents handle what it caused. -/
def liveStep (addrs : List Address) (s : Mesh × Client) (j : Json) :
    Answer (Json × (Mesh × Client)) := do
  let (m, c) := s
  let x ← if (← str (← field j "call")) == "process" then pure (processRun c)
    else clientCall Agent.call (liveRef addrs) 1 c j
  let ((r, c), m) := match x.run m with
    | .ok r m => (r, m)
    | .error e m => ((.error e, c), m)
  pure (Json.record (resultFields r), (m.settle, c))

/-- An agent's entries as it reports them. -/
def finalEntries (m : Mesh) (a : Address) : Json :=
  let entries := match (runMesh (Client.getEntries Agent.call a) m).1 with
    | .ok es => .arr (es.map entryJson)
    | .error f => faultJson f
  Json.record [("addr", addressJson a), ("entries", entries)]

/-- How each started agent stopped, in order. -/
def stopsJson (m : Mesh) (started : List Address) : List Json :=
  started.zipIdx.map fun (a, i) =>
    match (m.find? a).bind (·.halted) with
    | some f => faultJson f
    | none =>
      if i + 1 == started.length then Json.record [("joined", .bool true)] else .str "ok"

/-- A session of agents running on their own. -/
def liveOp (req : Json) : Answer Json := do
  let addrs ← (← listD req "agents").mapM address
  let vnodes ← match opt req "vagents" with
    | some v => u16 v
    | none => pure 20
  let gb ← match opt req "memory_gb" with
    | some g => float g
    | none => pure 0.5
  let bundles ← match opt req "filter_bundles" with
    | some b => strs b
    | none => pure [builtinBundle]
  let seed ← match opt req "seed" with
    | some a => do pure (some (← address a))
    | none => pure none
  let base : AgentConfig := { AgentConfig.default with
    memoryGb := some gb, bundles, vnodes,
    skipGroups := ← boolD req "skip_group_filters" false,
    heartbeatMs := UInt64.ofNat (← natD req "hb_ms" 500),
    pollMs := UInt64.ofNat (← natD req "poll_ms" 500) }
  let showFinal ← boolD req "final" true
  let catalog ← catalogOf req
  let (mesh, spawned, started) := addrs.zipIdx.foldl
    (fun (acc : Mesh × List Json × List Address) (a, i) =>
      let (m, spawned, started) := acc
      let seed := if i == 0 then seed else seed.orElse fun _ => addrs.head?
      let cfg := { base with bind := a, seed }
      match startAgent catalog m cfg with
      | .ok m => (m, spawned ++ [Json.record [("addr", addressJson a)]], started ++ [a])
      | .error f => (m, spawned ++ [startFaultJson f], started))
    (Mesh.empty, [], [])
  match started with
  | [] => pure (Json.record [("spawn", .arr spawned), ("stop", .arr [])])
  | entry :: _ =>
    let converged := mesh.converged
    let (results, (mesh, _)) := (← listD req "steps").foldl (fun (acc, s) j =>
      match liveStep addrs s j with
      | .ok (r, s) => (acc ++ [r], s)
      | .error e => (acc ++ [e], s)) ([], (mesh, Client.make entry vnodes))
    let finalJ := if showFinal then [("final", Json.arr (started.map (finalEntries mesh)))] else []
    pure (Json.record ([("client_agent", addressJson entry), ("converged", .bool converged),
      ("spawn", .arr spawned), ("steps", .arr results), ("stop", .arr (stopsJson mesh started))] ++
      finalJ))

end Console

end ShardStore
