import ShardStore.Fault
import ShardStore.Filter.Catalog
import ShardStore.Config.Budget
import ShardStore.Decimal.Layout
/-!
The settings of one agent.

An agent is told where to bind, whom to join, how large a store to keep, which filter bundles
to load at start, how many virtual nodes to put on the ring and how often to poll, beat and
give up on a request. Every setting has a default, so an empty description is a complete one.

Settings are checked before an agent starts: the slot must be one a client can name, there must
be at least one virtual node, a configured store size must be a positive finite number of
gigabytes, and the poll and heartbeat intervals must be positive.
-/

namespace ShardStore

/-- The settings of one agent. -/
structure AgentConfig where
  bind : Address
  /-- The agent to join through; none starts a new mesh. -/
  seed : Option Address
  /-- The store size in gigabytes; none leaves it to the machine's memory. -/
  memoryGb : Option Float
  skipGroups : Bool
  /-- Filter bundles loaded at start, in order. -/
  bundles : List String
  vnodes : UInt16
  heartbeatMs : UInt64
  pollMs : UInt64
  requestMs : UInt64
  /-- Heartbeats gossiped after a change of membership. -/
  hbRounds : UInt32

namespace AgentConfig

/-- The defaults: the loopback address at slot 0, no seed, the built-in bundle, 100 virtual
nodes, half-second polls and heartbeats, five-second requests and three gossip rounds. -/
def default : AgentConfig where
  bind := Address.loopback 0
  seed := none
  memoryGb := none
  skipGroups := false
  bundles := [builtinBundle]
  vnodes := Address.startingVirtualNodes
  heartbeatMs := 500
  pollMs := 500
  requestMs := 5000
  hbRounds := 3

/-- Check the settings, naming the first that is out of range. -/
def validate (c : AgentConfig) : Outcome Unit := do
  if c.bind.slot ≥ Address.maxSlot then
    throw (.config s!"bind slot {c.bind.slot.toNat} outside 0..{Address.maxSlot.toNat}")
  if c.vnodes == 0 then throw (.config "virtual_agents must be positive")
  if let some gb := c.memoryGb then
    if !(gb > 0.0 && gb.isFinite) then
      throw (.config s!"memory_gb must be positive, got {Decimal.display gb}")
  if c.pollMs == 0 || c.heartbeatMs == 0 then
    throw (.config "poll and heartbeat intervals must be positive")

/-- The store budget in bytes of a configured size; none when the size is left to the machine. -/
def budget? (c : AgentConfig) : Option UInt64 := c.memoryGb.map Budget.ofGb

end AgentConfig

end ShardStore
