import ShardStore.Mesh.World
import ShardStore.Shard.Process
/-!
How an agent handles a message.

**Writes.** A write goes to the owner of its key by the agent's ring. The owner applies it at
once when idle or closing a stage (a tag addition only when closing) and holds it for the next
commit otherwise; a subscription is recorded on arrival. A write for a key owned elsewhere is
forwarded, but a write from outside that arrives for a foreign key while a run is going on is a
protocol error. Every write pushed from one agent to another is counted on both ends.

**Barriers.** Each stage ends when every agent has done its local work and received every write
sent to it during the stage. An agent reports its sent counts to the synchronizer (the owner of
the synchronisation key), which, once all have reported, tells each agent how many writes to
expect; an agent that has received that many arrives, and when all have arrived the
synchronizer ends the barrier everywhere. What an agent does at the end depends on its stage:
sweep, commit, decide the next round, or start the graph stage.

**Graph stage.** Agents send each vertex named by their keys to the vertex's owner, set up their
engines once every agent has sent its list, and run rounds, each agent reporting each round to
all; the stage ends when a round is inactive everywhere.

**Requests.** A few control messages ask other agents and wait for their replies; the way of
asking is passed in as `Call`, so that one agent's handling can run another's.
-/

namespace ShardStore

/-- Where a message came from: another agent pushing it (counted at barriers), or a caller
waiting for the reply. -/
inductive Origin where
  | peer
  | client
deriving DecidableEq, Repr

/-- Ask an agent and wait for its reply; an error reply is a failure. -/
abbrev Call := Address → Message → MeshM Reply

namespace Agent

open Mesh

/-! ### Writes -/

/-- Apply a write now and route what it causes. -/
def applyNow (route : Mutation → MeshM Unit) (me : Address) (mu : Mutation) : MeshM Unit := do
  let more ← onShard me (Shard.apply mu)
  more.forM route

/-- Take a write for a key this agent owns, as its stage says. -/
def accept (route : Mutation → MeshM Unit) (me : Address) (mu : Mutation) : MeshM Unit := do
  let n ← nodeOf me
  if n.phase == .stageProcessed && n.wait.arrived then
    change me fun n => { n with held := n.held.push mu }
  else
    match mu with
    | .subscribe s w r =>
      match ← onShard me (Shard.subscribe s w r) with
      | some wake => route wake
      | none => pure ()
    | .addTag .. =>
      if n.phase == .stageClosing then applyNow route me mu else onShard me (Shard.stage mu)
    | _ =>
      if n.phase == .preload || n.phase == .stageClosing then applyNow route me mu
      else onShard me (Shard.stage mu)

/-- Take a write here if this agent owns its key, else push it to the owner and count it. A new
entry gets its key first. `own` marks this agent's own effects, which may always be forwarded.
Each level of fuel allows one more level of writes caused by writes. -/
def place (me : Address) : Nat → Mutation → Bool → MeshM Unit
  | 0, _, _ => pure ()
  | fuel + 1, mu, own => do
    let mu ← match mu with
      | .addEntry e => do
        let e ← onShard me (Shard.assignKey e)
        pure (Mutation.addEntry e)
      | other => pure other
    let n ← nodeOf me
    let key := mu.routeKey
    let owner ← lift (n.member.owner key)
    if owner == me then accept (fun m => place me fuel m true) me mu
    else if !own && n.phase != .preload then
      throw (.protocolState
        s!"write for {key.render} owned by {owner.render} arrived in {n.phase.name}")
    else do
      send owner mu.toMessage
      change me fun n => { n with sent := n.sent.record owner }

/-- Route one of this agent's own effects. A routed write causes at most two more levels (the
wakes of a new entry, the wake of a subscription), so four levels are enough. -/
def route (me : Address) (mu : Mutation) : MeshM Unit := place me 4 mu true

/-- Route several effects in order. -/
def routeAll (me : Address) (ms : List Mutation) : MeshM Unit := ms.forM (route me)

/-! ### Barrier, agent side -/

/-- Tell the synchronizer this agent has arrived. -/
def arrive (me : Address) : MeshM Unit := do
  let sync ← lift (← nodeOf me).member.synchronizer
  send sync (.atBarrier me)

/-- Count a write received from another agent. -/
def countRecv (me : Address) : MeshM Unit := do
  let (done, wait) := (← nodeOf me).wait.recordRecv
  change me fun n => { n with wait }
  if done then arrive me

/-- A write arrived: place it, and count it when another agent pushed it, even if placing
failed. -/
def onMutation (me : Address) (mu : Mutation) (origin : Origin) : MeshM Unit := do
  let failed ← tryCatch (do place me 4 mu false; pure none) fun e => pure (some e)
  if origin == .peer then countRecv me
  match failed with
  | some e => throw e
  | none => pure ()

/-- Report to the synchronizer: whether this agent wants another round, and what it sent. -/
def startBarrierWait (me : Address) : MeshM Unit := do
  let n ← nodeOf me
  let sync ← lift n.member.synchronizer
  let (sent, ledger) := n.sent.take
  change me fun n => { n with sent := ledger }
  send sync (.startBarrierWait me n.again (sent.map fun (a, c) => (a, c.toUInt64)))

/-- The local work of a stage is done; wait for the others. -/
def finishStage (me : Address) : MeshM Unit := do
  change me fun n => { n with phase := .stageProcessed }
  startBarrierWait me

/-! ### Fan-out -/

/-- Push a message to every known agent, this one included. -/
def broadcast (me : Address) (msg : Message) : MeshM Unit := do
  (← nodeOf me).member.agents.forM fun a => send a msg

/-- Ask every other known agent, in order, and wait for each. -/
def fanOut (call : Call) (me : Address) (msg : Message) : MeshM Unit := do
  ((← nodeOf me).member.agents.filter (· != me)).forM fun a => do
    let _ ← call a msg

/-! ### Processing -/

/-- Start a run, unless one is going on. -/
def onProcessBroadcast (me : Address) : MeshM Unit := do
  let n ← nodeOf me
  if n.processing then throw (.protocolState "processing already running")
  if ← lift n.member.isSynchronizer then change me fun n => { n with runActive := true }
  broadcast me (.process true)

/-- Begin a single-entry round; a fresh run also arms the synchronizer's flags. -/
def onProcess (me : Address) (fresh : Bool) : MeshM Unit := do
  if fresh then
    if ← lift (← nodeOf me).member.isSynchronizer then
      change me fun n => { n with runActive := true, algPending := true, lastRoundAlg := false }
  change me fun n => { n with phase := .stageBegin, again := false }
  startBarrierWait me

/-- Begin the graph stage. -/
def onAlgProcess (me : Address) : MeshM Unit := do
  change me fun n => { n with phase := .stageAlgProcess, again := false }
  startBarrierWait me

/-- Sweep the single-entry filters, reading across the mesh, and route what they wrote. -/
def runSweep (me : Address) : MeshM Unit := do
  let m ← get
  let n ← nodeOf me
  let w ← lift (n.shard.sweep (m.lookupFor n))
  change me fun n => { n with again := !w.mutations.isEmpty }
  routeAll me w.mutations
  finishStage me

/-- Commit what was held, route the wakes, take the writes held back, and wait again. -/
def closeStage (me : Address) : MeshM Unit := do
  change me fun n => { n with phase := .stageClosing }
  let report ← onShard me Shard.commitStaged
  routeAll me report.wakes
  let held := (← nodeOf me).held
  change me fun n => { n with held := #[] }
  held.toList.forM (accept (route me) me)
  startBarrierWait me

/-- The synchronizer decides: another single-entry round if anyone wrote, else the graph stage
if it is due and there are group filters, else the run is over. -/
def decideNext (me : Address) : MeshM Unit := do
  let n ← nodeOf me
  let graphStage := !n.skipGroups && n.shard.filters.hasGroups
  let (again, tally) := n.tally.takeAgain
  change me fun n => { n with tally }
  if again then
    change me fun n =>
      { n with algPending := if n.lastRoundAlg then n.algPending else true, lastRoundAlg := false }
    broadcast me (.process false)
  else if n.algPending && graphStage then
    change me fun n => { n with algPending := false, lastRoundAlg := true }
    broadcast me .algProcess
  else
    change me fun n => { n with algPending := false, lastRoundAlg := false, runActive := false }

/-- After the closing barrier: go on if this agent wrote, else go idle; the synchronizer
decides what comes next. -/
def afterClose (me : Address) : MeshM Unit := do
  let n ← nodeOf me
  change me fun n => { n with phase := if n.again then .stageBegin else .preload }
  if ← lift n.member.isSynchronizer then decideNext me

/-! ### Graph stage -/

/-- Add to the list kept for an address in an address-ascending list of lists. -/
def gather {α : Type} (a : Address) (x : α) : List (Address × List α) → List (Address × List α)
  | [] => [(a, [x])]
  | (b, xs) :: rest =>
    match Address.compare a b with
    | .lt => (a, [x]) :: (b, xs) :: rest
    | .eq => (b, xs ++ [x]) :: rest
    | .gt => (b, xs) :: gather a x rest

/-- The list kept for an address. -/
def gathered {α : Type} (a : Address) (groups : List (Address × List α)) : List α :=
  ((groups.find? (·.1 == a)).map (·.2)).getD []

/-- Send each vertex named by this agent's keys to its owner; every agent gets a list. -/
def sendVertices (me : Address) : MeshM Unit := do
  let n ← nodeOf me
  let byOwner ← (Engine.localVertices n.shard.store).foldlM (fun acc (v : Vertex) => do
    let owner ← lift (n.member.owner ⟨v.1, v.2, 0⟩)
    pure (gather owner v acc)) []
  n.member.agents.forM fun a => send a (.algVertices me (gathered a byOwner))

/-- Route the writes of vertex programs; any write means another round. -/
def routeEffects (me : Address) (effects : List Mutation) : MeshM Unit := do
  change me fun n => { n with again := n.again || !effects.isEmpty }
  routeAll me effects

/-- Run one graph round and report it, with each agent's messages, to every agent. -/
def algRound (me : Address) : MeshM Unit := do
  let m ← get
  let n ← nodeOf me
  let (e, effects, r) := n.engine.round (m.lookupFor n)
  change me fun n => { n with engine := e }
  let out ← lift r
  routeEffects me effects.toList
  let n ← nodeOf me
  let batches ← out.outgoing.foldlM (fun acc (vm : VertexMessage) => do
    let owner ← lift (n.member.owner ⟨vm.graph, vm.vtx, 0⟩)
    pure (gather owner vm acc)) []
  n.member.agents.forM fun a =>
    send a (.algInternalCompute me out.active out.iter.toUInt64 (gathered a batches))

/-- Vertices arrived; once every agent has sent its list, set up and run the first round. -/
def onAlgVertices (me sender : Address) (vs : List Vertex) : MeshM Unit := do
  change me fun n => { n with engine := n.engine.addVertices vs }
  let n ← nodeOf me
  let (all, x) := n.exchange.onVertices sender n.member.numNeighbors
  change me fun n => { n with exchange := x }
  if all then
    let m ← get
    let n ← nodeOf me
    let (e, r) := n.engine.setup n.shard.store n.shard.filters.groups (m.lookupFor n)
    change me fun n => { n with engine := e }
    let _ ← lift r
    routeEffects me []
    algRound me

/-- A round report arrived; once every agent has reported the round this engine is at, run the
next one if any was active, else end the graph stage. -/
def onAlgCompute (me sender : Address) (active : Bool) (iter : UInt64)
    (ms : List VertexMessage) : MeshM Unit := do
  change me fun n =>
    { n with engine := n.engine.deliver iter.toNat ms,
             exchange := n.exchange.onCompute sender iter.toNat active }
  let n ← nodeOf me
  if n.engine.ready then
    let (r, x) := n.exchange.complete n.engine.iter n.member.numNeighbors
    change me fun n => { n with exchange := x }
    match r with
    | none => pure ()
    | some true => algRound me
    | some false =>
      change me fun n => { n with engine := n.engine.teardown, exchange := Exchange.empty }
      finishStage me

/-! ### Barrier, synchronizer side -/

/-- Take a barrier report; once all are in, tell each agent what to expect. -/
def onBarrierReport (me sender : Address) (again : Bool) (sent : List (Address × UInt64)) :
    MeshM Unit := do
  let n ← nodeOf me
  let (dist, tally) := n.tally.report sender again (sent.map fun (a, c) => (a, c.toNat))
    n.member.agents
  change me fun n => { n with tally }
  match dist with
  | some d => d.forM fun (a, e) => send a (.barrierMsgDist e.toUInt64)
  | none => pure ()

/-- An agent arrived; once all have, end the barrier everywhere. -/
def onAtBarrier (me sender : Address) : MeshM Unit := do
  let n ← nodeOf me
  let (all, tally) := n.tally.arrive sender n.member.numNeighbors
  change me fun n => { n with tally }
  if all then broadcast me .endBarrier

/-- The barrier ended: do what this agent's stage calls for. -/
def onEndBarrier (me : Address) : MeshM Unit := do
  change me fun n => { n with wait := n.wait.finish }
  match (← nodeOf me).phase with
  | .preload => throw (.protocolState "END_BARRIER in PRELOAD")
  | .stageBegin => runSweep me
  | .stageProcessed => closeStage me
  | .stageClosing => afterClose me
  | .stageAlgProcess => sendVertices me

/-! ### Files -/

/-- Refuse an operation outside the idle stage. -/
def requirePreload (me : Address) (op : String) : MeshM Unit := do
  let n ← nodeOf me
  if n.phase != .preload then throw (.protocolState s!"{op} while in {n.phase.name}")

/-- Route new entries; how many. -/
def routeEntries (me : Address) (es : List Entry) : MeshM Reply := do
  es.forM fun e => route me (.addEntry e)
  pure (.count es.length.toUInt64)

/-- Where an agent exports to in a directory. -/
def exportPath (me : Address) (dir : String) : String := Disk.join dir s!"pando-export-{me.render}"

/-- Write this agent's export file into a directory; the path written. -/
def exportTo (me : Address) (dir : String) : MeshM String := do
  let path := exportPath me dir
  let m ← get
  let n ← nodeOf me
  set { m with disk := ← lift (m.disk.write path n.shard.serialize) }
  pure path

/-- Import an export file. -/
def importFile (me : Address) (path : String) : MeshM Reply := do
  requirePreload me "IMPORT_DB"
  routeEntries me (← lift ((← get).disk.readExport path))

/-- Share out a directory's files round-robin over the known agents, in name order; how many. -/
def importDistribute (call : Call) (me : Address) (dir : String) : MeshM Reply := do
  requirePreload me "IMPORT_DB_DISTRIBUTE"
  let files ← lift ((← get).disk.listFiles dir)
  let agents := (← nodeOf me).member.agents
  if agents.isEmpty then throw .emptyRing
  (files.zipIdx).forM fun (path, i) => do
    let a := agents[i % agents.length]?.getD me
    if a == me then
      let _ ← importFile me path
    else
      let _ ← call a (.importDb path)
  pure (.count files.length.toUInt64)

/-- The value under a key: from this store if this agent owns it, else from the owner's
responder. -/
def getEntryByKey (call : Call) (me : Address) (k : Key) : MeshM Reply := do
  let n ← nodeOf me
  let owner ← lift (n.member.owner k)
  if owner == me then pure (.value ((n.shard.store.get? k).map (·.value)))
  else call owner.responder (.getEntryByKey k)

/-! ### Handling -/

/-- Handle one message; the reply for a waiting caller. -/
def handle (call : Call) (me : Address) : Message → Origin → MeshM Reply
  | .handshake peers, _ => do
    withMember me fun m => let (m, ps) := m.onHandshake peers; ((), m, ps)
    pure .ack
  | .heartbeat peers, _ => do
    change me fun n => { n with member := n.member.onHeartbeat peers }
    pure .ack
  | .wantHeartbeat sender, _ => do
    withMember me fun m => let (m, ps) := m.onWantHeartbeat sender; ((), m, ps)
    pure .ack
  | .addNeighbor a, _ => do
    withMember me fun m => let (m, ps) := m.onAddNeighbor a; ((), m, ps)
    pure .ack
  | .numNeighbors, _ => do return .count (← nodeOf me).member.numNeighbors.toUInt64
  | .getNeighbors, _ => do return .peers (← nodeOf me).member.agents
  | .ringSize, _ => do return .count (← nodeOf me).member.ringSize.toUInt64
  | .stats a size, _ => do
    change me fun n => { n with member := n.member.recordStats a size.toNat }
    pure .ack
  | .addEntry e, o => do onMutation me (.addEntry e) o; pure .ack
  | .addTag k t, o => do onMutation me (.addTag k t) o; pure .ack
  | .removeTag k t, o => do onMutation me (.removeTag k t) o; pure .ack
  | .updateValue k v, o => do onMutation me (.updateValue k v) o; pure .ack
  | .subscribe s w r, o => do onMutation me (.subscribe s w r) o; pure .ack
  | .getEntryByKey k, _ => getEntryByKey call me k
  | .addFilterDir b, _ => do
    let _ ← onShard me (Shard.addFilterDir b)
    pure .ack
  | .addFilterDirBroadcast b, _ => do
    let _ ← onShard me (Shard.addFilterDir b)
    fanOut call me (.addFilterDir b)
    pure .ack
  | .installFilter f, _ => do onShard me (Shard.installFilter f); pure .ack
  | .installFilterBroadcast f, _ => do
    onShard me (Shard.installFilter f)
    fanOut call me (.installFilter f)
    pure .ack
  | .clearFilters, _ => do onShard me Shard.clearFilters; pure .ack
  | .clearFiltersBroadcast, _ => do
    onShard me Shard.clearFilters
    fanOut call me .clearFilters
    pure .ack
  | .addDbFile path, _ => do
    requirePreload me "ADD_DB_FILE"
    routeEntries me (← lift ((← get).disk.readText path))
  | .exportDb dir, _ => do return .text (Disk.display (← exportTo me dir))
  | .exportDbBroadcast dir, _ => do
    let _ ← exportTo me dir
    fanOut call me (.exportDb dir)
    pure .ack
  | .importDb path, _ => importFile me path
  | .importDbDistribute dir, _ => importDistribute call me dir
  | .dbSize, _ => do return .count (← nodeOf me).shard.store.size.toUInt64
  | .getState, _ => do return .text (← nodeOf me).phase.name
  | .processing, _ => do return .flag (← nodeOf me).processing
  | .query tags, _ => do return .entries ((← nodeOf me).shard.store.query tags)
  | .getEntries, _ => do return .entries (← nodeOf me).shard.store.entries
  | .installedFilters, _ => do return .text (",".intercalate (← nodeOf me).shard.filters.names)
  | .printEntries, _ => pure .ack
  | .processBroadcast, _ => do onProcessBroadcast me; pure .ack
  | .process fresh, _ => do onProcess me fresh; pure .ack
  | .algProcess, _ => do onAlgProcess me; pure .ack
  | .startBarrierWait sender again sent, _ => do onBarrierReport me sender again sent; pure .ack
  | .barrierMsgDist expected, _ => do
    let (done, wait) := (← nodeOf me).wait.expect expected.toNat
    change me fun n => { n with wait }
    if done then arrive me
    pure .ack
  | .atBarrier sender, _ => do onAtBarrier me sender; pure .ack
  | .endBarrier, _ => do onEndBarrier me; pure .ack
  | .algVertices sender vs, _ => do onAlgVertices me sender vs; pure .ack
  | .algInternalCompute sender active iter ms, _ => do
    onAlgCompute me sender active iter ms
    pure .ack

/-- Decode a frame and handle it; the reply, or the fault that stopped it. -/
def handleFrame (call : Call) (me : Address) (frame : Bytes) (origin : Origin) :
    MeshM (Outcome Reply) :=
  match Message.decode frame with
  | .error e => pure (.error (.decode e))
  | .ok msg => tryCatch (do pure (.ok (← handle call me msg origin))) fun e => pure (.error e)

/-- Handle a frame for a waiting caller: the encoded reply (an error reply for a fault), and
the fault if it stops the agent. -/
def dispatch (call : Call) (me : Address) (frame : Bytes) (origin : Origin) :
    MeshM (Bytes × Option Fault) := do
  match ← handleFrame call me frame origin with
  | .ok r => pure (r.encode, none)
  | .error e => pure ((Reply.ofFault e).encode, if e.isFatal then some e else none)

/-- Ask an address and wait. A responder address is answered from that agent's store; an idle
agent handles the request at once, and may ask others in turn; a busy agent never answers in
time. Each level of fuel allows one more level of nested requests. -/
def request : Nat → Call
  | 0, dest, _ => throw (.timeout dest)
  | fuel + 1, dest, msg => do
    let m ← get
    let bytes : Bytes ← match m.responderOf? dest with
      | some r => pure (r.answer msg.encode).encode
      | none =>
        if m.busy.contains dest then throw (.timeout dest)
        else if m.isBound dest then do
          modify fun m => { m with busy := dest :: m.busy }
          let (reply, fatal) ← dispatch (request fuel) dest msg.encode .client
          modify fun m => { m with busy := m.busy.erase dest }
          if let some f := fatal then modify (·.halt dest f)
          pure reply
        else throw (.unreachable dest "not bound")
    match Reply.decode bytes with
    | .ok r => lift r.intoResult
    | .error e => throw (.decode e)

/-- Ask an address with fuel for a chain of requests through every agent. -/
def call (dest : Address) (msg : Message) : MeshM Reply := do
  request ((← get).nodes.size + 1) dest msg

end Agent

end ShardStore
