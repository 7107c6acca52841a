import ShardStore.Mesh.Delivery
import ShardStore.Config.Agent
/-!
Starting an agent in a running mesh from its settings.

Starting checks the settings, makes the agent with its filter bundles, binds the agent's
address and then its responder's, and finally joins the mesh through the seed when there is
one. Each step can fail, and a failure leaves the mesh as it was: nothing is bound and nothing
was sent. An address is taken while an agent that has not stopped listens there, and a
responder address stays taken as long as its agent is in the mesh, stopped or not.
-/

namespace ShardStore

/-- How an agent with these settings is set up, with the store budget to use when the settings
leave it to the machine. -/
def AgentConfig.nodeConfig (c : AgentConfig) (machineBudget : Nat) : NodeConfig :=
  ⟨c.vnodes, (c.budget?.map UInt64.toNat).getD machineBudget, c.bundles, c.hbRounds.toNat,
   c.skipGroups⟩

namespace Mesh

/-- No agents yet, in a mesh where agents stop at fatal faults, as agents running on their own
do. -/
def empty : Mesh := ⟨#[], [], Disk.empty, true⟩

/-- Whether an address is taken. -/
def taken (m : Mesh) (a : Address) : Bool := m.isBound a || (m.responderOf? a).isSome

/-- Start an agent with its settings. -/
def start (m : Mesh) (cfg : AgentConfig) (machineBudget : Nat) (catalog : Catalog) :
    Outcome Mesh := do
  cfg.validate
  let n ← Node.make (cfg.nodeConfig machineBudget) catalog cfg.bind
  for a in [cfg.bind, cfg.bind.responder] do
    if m.taken a then throw (.io s!"{a.render} already bound")
  let m := { m with nodes := m.nodes.push n }
  match cfg.seed with
  | none => pure m
  | some seed =>
    match (join cfg.bind seed).run m with
    | .ok _ m => pure m
    | .error e _ => throw e

/-- Let the agents handle everything they were sent, whatever faults they meet. -/
def settle (m : Mesh) : Mesh :=
  match deliver.run m with
  | .ok _ m => m
  | .error _ m => m

/-- The agents that have not stopped. -/
def running (m : Mesh) : List Node := m.nodes.toList.filter (·.halted.isNone)

/-- Whether every agent that has not stopped knows exactly the agents that have not stopped. -/
def converged (m : Mesh) : Bool :=
  let live := m.running.foldl (fun acc n => Address.insertSorted n.addr acc) []
  m.running.all fun n => n.member.agents == live

end Mesh

end ShardStore
