import ShardStore.Mesh.Node
import ShardStore.Mesh.Disk
import ShardStore.Wire.Reply
import ShardStore.Filter.Basic
/-!
A mesh of agents in one place: the agents with their inboxes, the scratch directory they share,
and which agents are busy answering a request.

Pushing a frame appends it to the inbox of the agent bound at the address; an address where no
agent is bound cannot be reached. Each agent also answers by-key reads at its responder address
straight from its store, whatever it is doing; those reads are how a filter run sees entries
owned elsewhere.

A mesh may stop an agent at its first fatal fault, as an agent running on its own does: from then
on nothing reaches it but by-key reads at its responder address.

`MeshM` is a change of the whole mesh that may fail part way; like agents changed in place, a
failure keeps what was done before it.
-/

namespace ShardStore

/-- The agents of a mesh, in the order they were created, and what they share. -/
structure Mesh where
  nodes : Array Node
  /-- Agents handling a message and waiting on a request they made. -/
  busy : List Address
  disk : Disk
  /-- Whether an agent stops at a fatal fault, as an agent running on its own does, rather than
  only reporting it. -/
  stopOnFatal : Bool
deriving Inhabited

/-- A change of the mesh that may fail part way. -/
abbrev MeshM (α : Type) := EStateM Fault Mesh α

/-- The reply of a by-key read at an agent's responder address. Only by-key reads are served. -/
def Node.answer (n : Node) (frame : Bytes) : Reply :=
  match Message.decode frame with
  | .ok (.getEntryByKey k) => .value ((n.shard.store.get? k).map (·.value))
  | .ok other =>
    .ofFault (.protocolState s!"responder only serves GET_ENTRY_BY_KEY, got {other.typeName}")
  | .error e => .ofFault (.decode e)

namespace Mesh

/-- The agent bound at an address. -/
def find? (m : Mesh) (a : Address) : Option Node := m.nodes.find? (·.addr == a)

/-- Whether an agent that has not stopped is bound at an address. -/
def isBound (m : Mesh) (a : Address) : Bool := m.nodes.any fun n => n.addr == a && n.halted.isNone

/-- The agent whose responder address this is. -/
def responderOf? (m : Mesh) (a : Address) : Option Node := m.nodes.find? (·.addr.responder == a)

/-- Change the agent bound at an address. -/
def update (m : Mesh) (a : Address) (f : Node → Node) : Mesh :=
  { m with nodes := m.nodes.map fun n => if n.addr == a then f n else n }

/-- Record a fault an agent met: a fatal one stops the agent when the mesh stops agents on fatal
faults. -/
def halt (m : Mesh) (a : Address) (f : Fault) : Mesh :=
  if m.stopOnFatal && f.isFatal then m.update a fun n => { n with halted := some f } else m

/-- Append a frame to the inbox at an address. -/
def push (m : Mesh) (dest : Address) (frame : Bytes) : Outcome Mesh :=
  if m.isBound dest then .ok (m.update dest fun n => { n with inbox := n.inbox.push frame })
  else .error (.unreachable dest "not bound")

/-- The value under a key as an agent reads it: from its own store when it owns the key, else
from the owner's responder. -/
def fetch (m : Mesh) (n : Node) (k : Key) : Outcome (Option Bytes) := do
  let owner ← n.member.owner k
  if owner == n.addr then return (n.shard.store.get? k).map (·.value)
  match m.responderOf? owner.responder with
  | some r => return (r.shard.store.get? k).map (·.value)
  | none => throw (.unreachable owner.responder "not bound")

/-- What a filter run on an agent may read: values anywhere in the mesh, entries by tag from
its own store. -/
def lookupFor (m : Mesh) (n : Node) : Lookup := ⟨m.fetch n, n.shard.store.query⟩

/-! ### Changes of one agent -/

/-- Lift a result that changes nothing. -/
def lift {α : Type} : Outcome α → MeshM α
  | .ok x => pure x
  | .error e => throw e

/-- The agent bound at an address, as it stands. -/
def nodeOf (me : Address) : MeshM Node := do
  return ((← get).find? me).getD default

/-- Change an agent. -/
def change (me : Address) (f : Node → Node) : MeshM Unit := modify (·.update me f)

/-- Run a shard operation on an agent's shard; a failure keeps the shard it reached. -/
def onShard {α : Type} (me : Address) (op : ShardOp α) : MeshM α := fun m =>
  let n := (m.find? me).getD default
  match op n.shard with
  | .ok x s => .ok x (m.update me fun n => { n with shard := s })
  | .error e s => .error e (m.update me fun n => { n with shard := s })

/-- Push a message. -/
def send (dest : Address) (msg : Message) : MeshM Unit := do
  set (← lift ((← get).push dest msg.encode))

/-- Push messages in order, stopping at the first that cannot be delivered. -/
def sendAll (posts : List Post) : MeshM Unit := posts.forM fun (dest, msg) => send dest msg

/-- Push messages in order, skipping those that cannot be delivered. -/
def sendEach (posts : List Post) : MeshM Unit :=
  posts.forM fun (dest, msg) => tryCatch (send dest msg) fun _ => pure ()

/-- Take a membership step on an agent and send what it wants sent. -/
def withMember {α : Type} (me : Address) (f : Member → α × Member × List Post) : MeshM α := do
  let n ← nodeOf me
  let (x, member, posts) := f n.member
  change me fun n => { n with member }
  sendAll posts
  pure x

end Mesh

end ShardStore
