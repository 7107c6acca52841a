import ShardStore.Console.Catalog
import ShardStore.Console.Pure
import ShardStore.Mesh.Delivery
import ShardStore.Console.Calls
/-!
A session with a mesh of agents in one place.

The request names the agents, how they are set up, the scripted bundles, and files for the
scratch directory. The agents are created in order and, unless told otherwise, join the first
one. Each step then talks to the mesh: a request to an agent, a push into an inbox, a client
call, a heartbeat, or delivery by hand, and most steps deliver what was pushed afterwards. A
step shows what it did with the incidents of its delivery and a summary of every agent; the
answer ends with a full view of every agent.
-/

namespace ShardStore

namespace Console

/-- A mesh with its agents in creation order and the clients made so far, by number. -/
structure MeshSession where
  mesh : Mesh
  addrs : List Address
  clients : List (Nat × Client)
  vnodes : UInt16

/-- Run a change of the mesh; its outcome and the mesh after it. -/
def runMesh {α : Type} (x : MeshM α) (m : Mesh) : Outcome α × Mesh :=
  match x.run m with
  | .ok a m => (.ok a, m)
  | .error e m => (.error e, m)

/-- An agent by its number in the request or its address. -/
def agentRef (s : MeshSession) (j : Json) : Answer Address :=
  match j with
  | .nat i =>
    match s.addrs[i]? with
    | some a => pure a
    | none => refuse s!"no agent {i}"
  | other => address other

/-- An agent in a step's summary. -/
def summaryJson (n : Node) : Json :=
  Json.record [("addr", addressJson n.addr), ("state", .str n.phase.name),
    ("size", .nat n.shard.store.size), ("processing", .bool n.processing),
    ("queued", .nat n.inbox.size)]

/-- Every agent's summary, in creation order. -/
def agentsJson (m : Mesh) : Json := .arr (m.nodes.toList.map summaryJson)

/-- An incident of delivery. -/
def incidentJson (i : Incident) : Json :=
  Json.record [("agent", addressJson i.agent), ("fatal", .bool i.fault.isFatal),
    ("err", faultJson i.fault)]

/-- The full view of an agent. -/
def dumpJson (n : Node) : Json :=
  Json.record [("addr", addressJson n.addr), ("state", .str n.phase.name),
    ("entries", .arr (n.shard.store.entries.map entryJson)),
    ("neighbors", .arr (n.member.agents.map addressJson)),
    ("ring_size", .nat n.member.ringSize), ("hb_ctr", .nat n.member.hbCtr),
    ("installed", .arr (n.shard.filters.names.map .str)),
    ("staged", .nat n.shard.staged.size), ("subscriptions", .nat n.shard.waiters.size),
    ("used_bytes", .nat n.shard.store.used),
    ("db_sizes", .arr (n.member.dbSizes.map fun (a, k) => .arr [addressJson a, .nat k])),
    ("queued", .nat n.inbox.size)]

/-- A step's fields, with delivery afterwards unless `nopump`, the incidents and the summary. -/
def closeStep (s : MeshSession) (fields : List (String × Json)) (nopump : Bool) :
    Json × MeshSession :=
  if nopump then
    (Json.record (fields ++ [("log", .arr []), ("agents", agentsJson s.mesh)]), s)
  else
    let (r, m) := runMesh Mesh.deliver s.mesh
    let r := match r with
      | .ok r => r
      | .error _ => ⟨0, #[], false⟩
    (Json.record (fields ++ [("handled", .nat r.handled),
      ("log", .arr (r.incidents.toList.map incidentJson)), ("agents", agentsJson m)] ++
      (if r.limitHit then [("pump_limit", .bool true)] else [])), { s with mesh := m })

/-- The frame of a step: a message under `msg`, or hexadecimal under `frame`. -/
def stepFrame (j : Json) : Answer Bytes :=
  match opt j "msg" with
  | some mj => do return (← message mj).encode
  | none => do hex (← field j "frame")

/-- The client of a step, made on first use. -/
def clientOf (s : MeshSession) (j : Json) : Answer (Nat × Client) := do
  let id ← natD j "client" 0
  match s.clients.find? (·.1 == id) with
  | some (_, c) => pure (id, c)
  | none =>
    let a ← match opt j "agent" with
      | some a => agentRef s a
      | none => agentRef s (.nat 0)
    let v ← match opt j "vagents" with
      | some v => u16 v
      | none => pure s.vnodes
    pure (id, Client.make a v)

/-- Run one step. -/
def meshStep (s : MeshSession) (j : Json) : Answer (Json × MeshSession) := do
  let nopump ← boolD j "nopump" false
  if let some t := opt j "to" then
    let a ← agentRef s t
    let frame ← stepFrame j
    if !s.mesh.isBound a then
      return (faultJson (.unreachable a "not bound"), s)
    let ((reply, fatal), m) := match (Mesh.ask a frame).run s.mesh with
      | .ok r m => (r, m)
      | .error _ m => (([], none), m)
    let replyJ := match Reply.decode reply with
      | .ok r => replyJson r
      | .error e => decodeJson e
    let fields := [("reply", replyJ)] ++ (match fatal with
      | some f => [("fatal", faultJson f)]
      | none => [])
    return closeStep { s with mesh := m } fields nopump
  if let some t := opt j "push" then
    let a ← agentRef s t
    let frame ← stepFrame j
    match s.mesh.push a frame with
    | .ok m => return closeStep { s with mesh := m } [("pushed", .bool true)] nopump
    | .error f => return closeStep s (resultFields (.error f)) nopump
  if (opt j "client").isSome then
    let (id, c) ← clientOf s j
    let x ← clientCall Agent.call (agentRef s) 1 c j
    let ((r, c), m) := match x.run s.mesh with
      | .ok r m => (r, m)
      | .error e m => ((.error e, c), m)
    let s := { s with mesh := m, clients := (id, c) :: s.clients.filter (·.1 != id) }
    return closeStep s (resultFields r) nopump
  if let some t := opt j "heartbeat" then
    let a ← agentRef s t
    let (r, m) := runMesh (Mesh.heartbeat a) s.mesh
    let fields := match r with
      | .ok b => [("heartbeat", .bool b)]
      | .error f => resultFields (.error f)
    return closeStep { s with mesh := m } fields nopump
  if let some t := opt j "pump_one" then
    let a ← agentRef s t
    let (r, m) := runMesh (Mesh.handleNext a) s.mesh
    let (done, inc) := match r with
      | .ok r => r
      | .error _ => (false, none)
    return (Json.record [("handled", .bool done), ("log", .arr (inc.toList.map incidentJson)),
      ("agents", agentsJson m)], { s with mesh := m })
  if let some t := opt j "dump" then
    let a ← agentRef s t
    match s.mesh.find? a with
    | some n => return (dumpJson n, s)
    | none => refuse s!"no agent {a.render}"
  if let some k := opt j "owner" then
    let k ← key k
    return (Json.record [("owners", .arr (s.mesh.nodes.toList.map fun n =>
      outcomeJson addressJson (n.member.owner k)))], s)
  if (opt j "pump").isSome then return closeStep s [] false
  refuse s!"unknown step {j.compact}"

/-- The files of the scratch directory from the request. -/
def diskOf (req : Json) : Answer Disk :=
  match opt req "files" with
  | none => pure Disk.empty
  | some fs => do
    let files ← (← members fs).mapM fun (path, content) => do
      return ((path.splitOn "/").filter (· != ""), ← bytes content)
    pure ⟨files⟩

/-- A mesh session: set up, join, run the steps, and show every agent. -/
def meshOp (req : Json) : Answer Json := do
  let addrs ← (← listD req "agents").mapM address
  let vnodes ← match opt req "vagents" with
    | some v => u16 v
    | none => pure 20
  let gb ← match opt req "memory_gb" with
    | some g => float g
    | none => pure 0.5
  let bundles ← match opt req "filter_bundles" with
    | some b => strs b
    | none => pure ["builtin"]
  let hbRounds ← natD req "hb_rounds" 3
  let skip ← boolD req "skip_group_filters" false
  let joinAll ← boolD req "join" true
  let catalog ← catalogOf req
  let disk ← diskOf req
  let cfg : NodeConfig := ⟨vnodes, (Budget.ofGb gb).toNat, bundles, hbRounds, skip⟩
  let mesh ← lift (Mesh.create cfg catalog addrs disk)
  let (mesh, errors, log) := if joinAll then
      match addrs with
      | seed :: rest =>
        rest.foldl (fun (m, errs, log) a =>
          let (r, m) := runMesh (Mesh.join a seed) m
          let errs := match r with
            | .ok _ => errs
            | .error f => errs ++ [faultJson f]
          let (d, m) := runMesh Mesh.deliver m
          let log := match d with
            | .ok d => log ++ d.incidents.toList.map incidentJson
            | .error _ => log
          (m, errs, log)) (mesh, [], [])
      | [] => (mesh, [], [])
    else (mesh, [], [])
  let init := Json.record [("errors", .arr errors), ("log", .arr log), ("agents", agentsJson mesh)]
  let s : MeshSession := ⟨mesh, addrs, [], vnodes⟩
  let (results, s) := (← listD req "steps").foldl (fun (acc, s) j =>
    match meshStep s j with
    | .ok (r, s) => (acc ++ [r], s)
    | .error e => (acc ++ [e], s)) ([], s)
  pure (Json.record [("init", init), ("steps", .arr results),
    ("final", .arr (s.mesh.nodes.toList.map dumpJson))])

end Console

end ShardStore
