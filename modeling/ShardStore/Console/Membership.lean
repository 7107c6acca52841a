import ShardStore.Console.Form
import ShardStore.Mesh.Member
/-!
A session with one participant's view of the mesh.

The participant is an agent, or an observer when asked, and the request names the addresses
where something is bound. Each step is one membership operation; its messages are pushed in
order to bound addresses, and the first that cannot be delivered ends the step with its fault,
except for heartbeats, which skip what cannot be delivered. A step shows its value or fault,
the frames delivered, and the participant's view after it.
-/

namespace ShardStore

namespace Console

/-- A frame as it shows: the message it decodes to, or the decode error. -/
def frameJson (bs : Bytes) : Json :=
  match Message.decode bs with
  | .ok m => messageJson m
  | .error e => decodeJson e

/-- Push frames in order to bound addresses: the frames delivered, and the fault that stopped
the pushing unless undeliverable frames are skipped. -/
def pushFrames (bound : List Address) (skip : Bool) (frames : List (Address × Bytes)) :
    List Json × Option Fault :=
  frames.foldl (fun (sent, err) (dest, f) =>
    match err with
    | some _ => (sent, err)
    | none =>
      if bound.contains dest then
        (sent ++ [Json.record [("msg", frameJson f), ("to", addressJson dest)]], none)
      else if skip then (sent, none)
      else (sent, some (.unreachable dest "not bound"))) ([], none)

/-- The participant's view. -/
def viewJson (m : Member) : Json :=
  Json.record [("agents", .arr (m.agents.map addressJson)), ("hb_ctr", .nat m.hbCtr),
    ("num_neighbors", .nat m.numNeighbors), ("ring_size", .nat m.ringSize)]

/-- A list of addresses from a member. -/
def peersOf (j : Json) (k : String) : Answer (List Address) := do
  (← listD j k).mapM address

/-- Read one membership step: its value when all is delivered, the participant after it, the
frames to push, and whether undeliverable frames are skipped. -/
def memberOp (m : Member) (j : Json) : Answer (Outcome Json × Member × List Post × Bool) := do
  match ← str (← field j "op") with
  | "owner" => do
    let k ← key (← field j "key")
    pure ((m.owner k).map addressJson, m, [], false)
  | "has_ownership" => do
    let k ← key (← field j "key")
    pure ((m.hasOwnership k).map .bool, m, [], false)
  | "synchronizer" => pure (m.synchronizer.map addressJson, m, [], false)
  | "is_synchronizer" => pure (m.isSynchronizer.map .bool, m, [], false)
  | "add_neighbor" => do
    let peer ← address (← field j "peer")
    let notify ← boolD j "notify" true
    let (added, m, posts) := m.addNeighbor peer notify
    pure (.ok (.bool added), m, posts, false)
  | "merge_peers" => do
    let (merged, m) := m.mergePeers (← peersOf j "peers")
    pure (.ok (.bool merged), m, [], false)
  | "heartbeat" => do
    let (beat, m, posts) := m.heartbeat (← natD j "db_size" 0)
    pure (.ok (.bool beat), m, posts, true)
  | "record_stats" => do
    let a ← address (← field j "from")
    pure (.ok .null, m.recordStats a (← natD j "db_size" 0), [], false)
  | "on_want_heartbeat" => do
    let (m, posts) := m.onWantHeartbeat (← address (← field j "from"))
    pure (.ok .null, m, posts, false)
  | "on_heartbeat" => pure (.ok .null, m.onHeartbeat (← peersOf j "peers"), [], false)
  | "on_handshake" => do
    let (m, posts) := m.onHandshake (← peersOf j "peers")
    pure (.ok .null, m, posts, false)
  | "on_add_neighbor" => do
    let (m, posts) := m.onAddNeighbor (← address (← field j "peer"))
    pure (.ok .null, m, posts, false)
  | "request_mesh" => pure (.ok .null, m, m.requestMesh (← address (← field j "peer")), false)
  | "join" => do
    let (m, posts) := m.join (← address (← field j "seed"))
    pure (.ok .null, m, posts, false)
  | "send" => do
    let dest ← address (← field j "to")
    pure (.ok .null, m, [(dest, ← message (← field j "msg"))], false)
  | other => refuse s!"unknown op {other}"

/-- Run one step. -/
def memberStep (bound : List Address) (m : Member) (j : Json) : Answer (Json × Member) := do
  let (r, m, frames, skip) ← if (← str (← field j "op")) == "raw_push" then do
      let dest ← address (← field j "to")
      pure ((.ok Json.null : Outcome Json), m, [(dest, ← hex (← field j "hex"))], false)
    else do
      let (r, m, posts, skip) ← memberOp m j
      pure (r, m, posts.map fun (dest, msg) => (dest, msg.encode), skip)
  let (sent, err) := pushFrames bound skip frames
  let r := match err with
    | some f => faultJson f
    | none => outcomeJson id r
  pure (Json.record [("r", r), ("sent", .arr sent), ("view", viewJson m)], m)

/-- A participant session: run the steps and show the participant. -/
def participantOp (req : Json) : Answer Json := do
  let addr ← address (← field req "addr")
  let bound ← peersOf req "bound"
  let vnodes ← match opt req "vagents" with
    | some v => u16 v
    | none => pure 20
  let hbRounds ← natD req "hb_rounds" 3
  let m := if ← boolD req "observer" false then Member.observer addr vnodes
    else Member.agent addr vnodes hbRounds
  let (results, m) := (← listD req "steps").foldl (fun (acc, m) j =>
    match memberStep bound m j with
    | .ok (r, m) => (acc ++ [r], m)
    | .error e => (acc ++ [e], m)) ([], m)
  pure (Json.record [("steps", .arr results),
    ("final", Json.record [("addr", addressJson m.addr),
      ("db_sizes", .arr (m.dbSizes.map fun (a, k) => .arr [addressJson a, .nat k])),
      ("is_agent", .bool m.isAgent), ("view", viewJson m)])])

end Console

end ShardStore
