import ShardStore.Shard.Process
import ShardStore.Graph.Engine
/-!
A shard processing on its own, graph stage included.

Processing first runs the single-entry rounds to their end. Then, unless the graph stage is
switched off or no group filter is installed, the engine takes the store's vertices, sets up,
and runs rounds, delivering each round's messages to the iteration it reports, until a round
ends with no vertex active. The engine is then cleared, and the mutations the programs made are
staged in order and the stage closed.
-/

namespace ShardStore

/-- A shard with its graph engine. -/
structure LocalDb where
  shard : Shard
  engine : Engine
  skipGroups : Bool
deriving Inhabited

/-- What processing did. -/
structure ProcessReport where
  /-- Single-entry rounds. -/
  rounds : Nat
  /-- Graph rounds. -/
  iterations : Nat
  /-- Mutations made by vertex programs. -/
  effects : Nat
deriving Inhabited

namespace LocalDb

/-- Run a shard operation on the shard. -/
def onShard {α : Type} (op : ShardOp α) : EStateM Fault LocalDb α := fun d =>
  match op d.shard with
  | .ok x s => .ok x { d with shard := s }
  | .error e s => .error e { d with shard := s }

/-- Graph rounds until one ends inactive, delivering each round's messages. -/
def rounds (look : Lookup) : Engine → Array Mutation → Nat → Engine × Array Mutation × Option Fault
  | e, acc, 0 => (e, acc, none)
  | e, acc, fuel + 1 =>
    let (e, effects, r) := e.round look
    match r with
    | .error x => (e, acc ++ effects, some x)
    | .ok out =>
      let e := e.deliver out.iter out.outgoing.toList
      if out.active then rounds look e (acc ++ effects) fuel else (e, acc ++ effects, none)

/-- Process: single-entry rounds, then the graph stage. The fuel bounds the graph rounds of a
stage that never goes quiet. -/
def process (fuel : Nat := 100000) : EStateM Fault LocalDb ProcessReport := do
  let n ← onShard (Shard.process)
  let d ← get
  let filters := d.shard.filters.groups
  if d.skipGroups || filters.isEmpty then return ⟨n, 0, 0⟩
  let store := d.shard.store
  let look := Lookup.ofStore store
  let e := d.engine.addVertices (Engine.localVertices store)
  let (e, r) := e.setup store filters look
  set { d with engine := e }
  match r with
  | .error x => throw x
  | .ok _ => pure ()
  let (e, effects, err) := rounds look e #[] fuel
  set { d with engine := e }
  if let some x := err then throw x
  let iterations := e.iter
  set { d with engine := e.teardown }
  onShard (effects.toList.forM Shard.stage)
  let _ ← onShard Shard.stageClose
  pure ⟨n, iterations, effects.size⟩

end LocalDb

end ShardStore
