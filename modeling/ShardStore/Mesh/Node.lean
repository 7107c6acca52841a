import ShardStore.Shard.Basic
import ShardStore.Graph.Engine
import ShardStore.Mesh.Member
import ShardStore.Mesh.Inbox
/-!
One agent of a mesh: its shard, its graph engine, its membership, its inbox, and where it stands
in the processing protocol.

An agent is idle in `preload`. A run moves every agent through the stages in lock step, each
stage ending at a barrier: `stageBegin` sweeps the single-entry filters, `stageProcessed` waits
for everyone's writes, `stageClosing` commits what was held, and `stageAlgProcess` runs the
graph stage. Besides its stage an agent keeps the barrier counters of its own side (`sent`,
`wait`) and, when it is the synchronizer, of the coordinating side (`tally`, and the flags that
decide the next round).
-/

namespace ShardStore

/-- Where an agent stands in a run. -/
inductive Phase where
  | preload
  | stageBegin
  | stageProcessed
  | stageClosing
  | stageAlgProcess
deriving DecidableEq, Repr, Inhabited

/-- The name a stage is shown by. -/
def Phase.name : Phase → String
  | .preload => "PRELOAD"
  | .stageBegin => "STAGE_BEGIN"
  | .stageProcessed => "STAGE_PROCESSED"
  | .stageClosing => "STAGE_CLOSING"
  | .stageAlgProcess => "STAGE_ALG_PROCESS"

/-- How an agent is set up. -/
structure NodeConfig where
  vnodes : UInt16
  /-- The store's byte limit. -/
  budget : Nat
  /-- The filter bundles made available at start, in order. -/
  bundles : List String
  hbRounds : Nat
  skipGroups : Bool
deriving Inhabited

/-- An agent of the mesh. -/
structure Node where
  member : Member
  shard : Shard
  engine : Engine
  phase : Phase
  skipGroups : Bool
  inbox : Inbox
  /-- Mutations sent to each agent since the last barrier. -/
  sent : Ledger
  wait : Wait
  /-- Whether this agent's last sweep or graph round produced writes. -/
  again : Bool
  /-- Writes that arrived after this agent reached the barrier of the processed stage. -/
  held : Array Mutation
  tally : Tally
  /-- The synchronizer's mark that a run is going on. -/
  runActive : Bool
  /-- The graph stage is still due in this run. -/
  algPending : Bool
  /-- The round just closed was a graph round. -/
  lastRoundAlg : Bool
  exchange : Exchange
  /-- The fault that stopped the agent, when one did: a stopped agent takes no more messages,
  while its responder still answers by-key reads. -/
  halted : Option Fault
deriving Inhabited

namespace Node

/-- The agent's address. -/
def addr (n : Node) : Address := n.member.addr

/-- Whether a run is going on as far as this agent knows. -/
def processing (n : Node) : Bool := n.phase != .preload || n.runActive

/-- A new idle agent; the configured bundles are made available in order. -/
def make (cfg : NodeConfig) (catalog : Catalog) (addr : Address) : Outcome Node := do
  let shard := Shard.make (EntryStore.withLimit (some cfg.budget)) catalog (KeySource.ofSeed addr.serial)
  let shard ← cfg.bundles.foldlM (fun s b =>
    match Shard.addFilterDir b s with
    | .ok _ s => .ok s
    | .error e _ => .error e) shard
  pure { member := Member.agent addr cfg.vnodes cfg.hbRounds, shard, engine := Engine.empty,
         phase := .preload, skipGroups := cfg.skipGroups, inbox := Inbox.empty,
         sent := Ledger.empty, wait := Wait.empty, again := false, held := #[],
         tally := Tally.empty, runActive := false, algPending := false, lastRoundAlg := false,
         exchange := Exchange.empty, halted := none }

end Node

end ShardStore
