import ShardStore.Ring
import ShardStore.Wire.Message
import ShardStore.Mesh.Barrier
/-!
Mesh membership: what one participant knows of the mesh.

A participant holds the set of agents it knows (an agent knows itself; an observer knows no one
until told), the ring built from that set, a heartbeat counter and the store sizes other agents
reported. Learning a new agent rebuilds the ring and rearms the heartbeat counter; each heartbeat
spends one unit of it, so gossip stops a fixed number of rounds after the view last changed.

Every operation here is a pure step: the new participant and the messages it wants sent, in
order. Whoever carries them out sends them one by one and, except for heartbeats, stops at the
first that cannot be delivered; the state change has happened by then either way.
-/

namespace ShardStore

/-- A message to be pushed to an address. -/
abbrev Post := Address × Message

/-- What a participant knows of the mesh. -/
structure Member where
  addr : Address
  /-- Agents store entries and answer handshakes; observers only watch. -/
  isAgent : Bool
  /-- The agents known, ascending and without repeats. -/
  agents : List Address
  ring : Ring
  /-- Heartbeats left before gossip stops. -/
  hbCtr : Nat
  /-- The value the counter is rearmed to. -/
  hbRounds : Nat
  /-- Store sizes reported by other agents, by ascending address. -/
  dbSizes : List (Address × Nat)
deriving Inhabited

namespace Member

/-- The counter an observer is rearmed to. -/
def observerRounds : Nat := 3

/-- An agent that knows only itself. -/
def agent (addr : Address) (vnodes : UInt16) (hbRounds : Nat) : Member :=
  ⟨addr, true, [addr], (Ring.empty vnodes).build [addr], 0, hbRounds, []⟩

/-- An observer that knows no agent yet. -/
def observer (addr : Address) (vnodes : UInt16) : Member :=
  ⟨addr, false, [], Ring.empty vnodes, 0, observerRounds, []⟩

/-- The number of agents known. -/
def numNeighbors (m : Member) : Nat := m.agents.length

/-- The number of ring positions. -/
def ringSize (m : Member) : Nat := m.ring.size

/-- The agent owning a key, by this participant's ring. -/
def owner (m : Member) (k : Key) : Outcome Address := m.ring.owner k

/-- Whether this participant owns a key. -/
def hasOwnership (m : Member) (k : Key) : Outcome Bool := do
  return (← m.owner k) == m.addr

/-- The agent that coordinates barriers: the owner of the synchronisation key. -/
def synchronizer (m : Member) : Outcome Address := m.owner Key.sync

/-- Whether this participant coordinates barriers. -/
def isSynchronizer (m : Member) : Outcome Bool := m.hasOwnership Key.sync

/-- Take a new set of agents: rebuild the ring and rearm the counter. -/
def withAgents (m : Member) (agents : List Address) : Member :=
  { m with agents, hbCtr := m.hbRounds, ring := m.ring.build agents }

/-- The peers of a list not known yet, in list order and with the list's repeats. -/
def unknown (m : Member) (peers : List Address) : List Address :=
  peers.filter fun p => !m.agents.contains p

/-- Add one agent; whether it was new. A new agent other than this one is sent the view when
`notify` is set. -/
def addNeighbor (m : Member) (peer : Address) (notify : Bool) : Bool × Member × List Post :=
  if m.agents.contains peer then (false, m, [])
  else
    let m := m.withAgents (Address.insertSorted peer m.agents)
    (true, m, if notify && peer != m.addr then [(peer, .handshake m.agents)] else [])

/-- Add every unknown peer of a list; whether any was. -/
def mergePeers (m : Member) (peers : List Address) : Bool × Member :=
  let fresh := m.unknown peers
  if fresh.isEmpty then (false, m)
  else (true, m.withAgents (fresh.foldl (fun acc p => Address.insertSorted p acc) m.agents))

/-- Join a mesh through a running agent: know it and send it the view. -/
def join (m : Member) (seed : Address) : Member × List Post :=
  let (_, m, posts) := m.addNeighbor seed true
  (m, posts)

/-- A view arrived. An agent that learned something sends its new view to each peer that was
unknown before, once per mention. -/
def onHandshake (m : Member) (peers : List Address) : Member × List Post :=
  let fresh := m.unknown peers
  let (merged, m) := m.mergePeers peers
  if !merged || !m.isAgent then (m, [])
  else (m, (fresh.filter (· != m.addr)).map fun p => (p, .handshake m.agents))

/-- A heartbeat arrived: learn its view. -/
def onHeartbeat (m : Member) (peers : List Address) : Member := (m.mergePeers peers).2

/-- Someone asked for the view: rearm the counter and send it a heartbeat. -/
def onWantHeartbeat (m : Member) (sender : Address) : Member × List Post :=
  let m := { m with hbCtr := m.hbRounds }
  (m, [(sender, .heartbeat m.agents)])

/-- Ask a peer for its view. -/
def requestMesh (m : Member) (peer : Address) : List Post := [(peer, .wantHeartbeat m.addr)]

/-- Told of a new agent: an agent adds it and sends it the view; an observer adds it and asks it
for the view. -/
def onAddNeighbor (m : Member) (peer : Address) : Member × List Post :=
  let notify := m.isAgent
  let (_, m, posts) := m.addNeighbor peer notify
  (m, if notify then posts else posts ++ m.requestMesh peer)

/-- One heartbeat: unless the counter is spent, spend a unit and send every other agent the view
and this store's size. -/
def heartbeat (m : Member) (dbSize : Nat) : Bool × Member × List Post :=
  if m.hbCtr = 0 then (false, m, [])
  else
    let m := { m with hbCtr := m.hbCtr - 1 }
    (true, m, (m.agents.filter (· != m.addr)).flatMap fun p =>
      [(p, .heartbeat m.agents), (p, .stats m.addr dbSize.toUInt64)])

/-- Set the count of an address in an address-ascending list. -/
def putSize (a : Address) (n : Nat) : List (Address × Nat) → List (Address × Nat)
  | [] => [(a, n)]
  | (b, k) :: rest =>
    match Address.compare a b with
    | .lt => (a, n) :: (b, k) :: rest
    | .eq => (a, n) :: rest
    | .gt => (b, k) :: putSize a n rest

/-- Record the store size another agent reported. -/
def recordStats (m : Member) (a : Address) (n : Nat) : Member :=
  { m with dbSizes := putSize a n m.dbSizes }

end Member

end ShardStore
