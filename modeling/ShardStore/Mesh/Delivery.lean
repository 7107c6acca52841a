import ShardStore.Mesh.Agent
/-!
Running a mesh: creating its agents, joining them, and delivering what they push.

Delivery goes in passes over the agents in address order; in a pass each agent handles at most
the oldest frame of its inbox, as a message pushed by a peer. Delivery stops after a pass that
handled nothing, or when it has handled as many frames as its limit allows. A fault met while
handling is not answered to anyone; it is recorded as an incident of that agent.

An agent handling a message is busy: a request that reaches it in the meantime times out.
-/

namespace ShardStore

/-- A fault an agent met while handling a pushed message. -/
structure Incident where
  agent : Address
  fault : Fault

/-- What a delivery did. -/
structure DeliveryReport where
  handled : Nat
  incidents : Array Incident
  /-- Delivery stopped at its limit with frames still waiting. -/
  limitHit : Bool
deriving Inhabited

namespace Mesh

/-- The most frames one delivery handles. -/
def deliveryLimit : Nat := 200000

/-- Create the agents in order; an address may be bound once only. -/
def create (cfg : NodeConfig) (catalog : Catalog) (addrs : List Address) (disk : Disk) :
    Outcome Mesh :=
  addrs.foldlM (fun (m : Mesh) a => do
    if m.isBound a then throw (.io s!"{a.render} already bound")
    let n ← Node.make cfg catalog a
    pure { m with nodes := m.nodes.push n }) ⟨#[], [], disk, false⟩

/-- The agents' addresses, ascending. -/
def order (m : Mesh) : List Address :=
  m.nodes.foldl (fun acc n => Address.insertSorted n.addr acc) []

/-- Run a change while an agent is busy with it. -/
def whileBusy {α : Type} (a : Address) (x : MeshM α) : MeshM α := do
  modify fun m => { m with busy := a :: m.busy }
  let r ← x
  modify fun m => { m with busy := m.busy.erase a }
  pure r

/-- Hand a frame to an agent for a waiting caller: the encoded reply, and the fault if it stops
the agent. -/
def ask (a : Address) (frame : Bytes) : MeshM (Bytes × Option Fault) := do
  let (reply, fatal) ← whileBusy a (Agent.dispatch Agent.call a frame .client)
  if let some f := fatal then modify (·.halt a f)
  pure (reply, fatal)

/-- Let an agent handle the oldest frame of its inbox; whether there was one, and the fault it
met. A stopped agent handles nothing. -/
def handleNext (a : Address) : MeshM (Bool × Option Incident) := do
  let m ← get
  match (m.find? a).filter (·.halted.isNone) |>.bind (·.inbox.pop?) with
  | none => pure (false, none)
  | some (frame, rest) =>
    set (m.update a fun n => { n with inbox := rest })
    match ← whileBusy a (Agent.handleFrame Agent.call a frame .peer) with
    | .ok _ => pure (true, none)
    | .error e =>
      modify (·.halt a e)
      pure (true, some ⟨a, e⟩)

/-- One pass: each agent in turn handles at most one frame, while the limit allows. -/
def pass (r : DeliveryReport) : List Address → MeshM (Nat × DeliveryReport)
  | [] => pure (0, r)
  | a :: rest => do
    if r.handled ≥ deliveryLimit then pure (0, { r with limitHit := true })
    else
      let (done, inc) ← handleNext a
      let r := { r with handled := r.handled + (if done then 1 else 0),
                        incidents := match inc with
                          | some i => r.incidents.push i
                          | none => r.incidents }
      let (k, r) ← pass r rest
      pure (k + (if done then 1 else 0), r)

/-- Deliver until a pass handles nothing or the limit is reached. -/
def deliver : MeshM DeliveryReport := do
  let order := (← get).order
  let rec go : Nat → DeliveryReport → MeshM DeliveryReport
    | 0, r => pure { r with limitHit := true }
    | fuel + 1, r => do
      let (k, r) ← pass r order
      if r.limitHit || k == 0 then pure r else go fuel r
  go (deliveryLimit + 1) ⟨0, #[], false⟩

/-- One heartbeat of an agent; undeliverable frames are skipped. -/
def heartbeat (a : Address) : MeshM Bool := do
  let n ← nodeOf a
  let (beat, member, posts) := n.member.heartbeat n.shard.store.size
  change a fun n => { n with member }
  sendEach posts
  pure beat

/-- An agent joins the mesh through a seed agent. -/
def join (a seed : Address) : MeshM Unit :=
  withMember a fun m => let (m, ps) := m.join seed; ((), m, ps)

end Mesh

end ShardStore
