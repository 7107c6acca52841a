import ShardStore.Shard.Basic
import ShardStore.Store.Files
/-!
Running filters over a shard, and reading whole files into it.

A sweep runs every installed single-entry filter on every entry it applies to, in key order and
then install order, against the store as it stands; the runs' mutations are collected in order
and nothing is changed. One round of processing is a sweep, then staging all its mutations and
closing the stage; processing repeats rounds until a sweep produces nothing, and counts them.
-/

namespace ShardStore

/-- What a sweep did: how many filter runs, and the mutations they made. -/
structure Sweep where
  runs : Nat
  mutations : List Mutation
deriving Inhabited

namespace Shard

/-- Run the single-entry filters over the store, reading other entries through `look`. -/
def sweep (s : Shard) (look : Lookup) : Outcome Sweep :=
  let filters := s.filters.singles
  s.store.entries.foldlM (fun (w : Sweep) e =>
    filters.foldlM (fun (w : Sweep) f =>
      if f.shouldRun e then do
        let ms ← f.run look e
        pure ⟨w.runs + 1, w.mutations ++ ms⟩
      else pure w) w) ⟨0, []⟩

/-- Lift a result that does not change the shard. -/
def lift {α : Type} : Outcome α → ShardOp α
  | .ok x => pure x
  | .error e => throw e

/-- One round: sweep, stage the mutations, close the stage; whether the sweep made any. -/
def processOnce : ShardOp Bool := do
  let s ← get
  let w ← lift (s.sweep (Lookup.ofStore s.store))
  w.mutations.forM stage
  let _ ← stageClose
  pure !w.mutations.isEmpty

/-- Rounds until one makes nothing; how many ran. The fuel bounds a filter set that never
settles. -/
def process (fuel : Nat := 100000) : ShardOp Nat := do
  let rec go : Nat → Nat → ShardOp Nat
    | rounds, 0 => pure rounds
    | rounds, fuel + 1 => do
      if ← processOnce then go (rounds + 1) fuel else pure rounds
  go 1 fuel

/-- Add an entry and everything it causes. -/
def addEntry (e : Entry) : ShardOp Unit := applyLocal (.addEntry e)

/-- Read a text file of entries and add them; how many. -/
def addDbFile (name : String) (bs : Bytes) : ShardOp Nat := do
  let es ← lift (Files.parseText name bs)
  es.forM addEntry
  pure es.length

/-- The export form of the store. -/
def serialize (s : Shard) : Bytes := Files.serialize s.store.entries

/-- Read an export and add its entries; how many. An empty file is refused. -/
def importDb (name : String) (bs : Bytes) : ShardOp Nat := do
  if bs.isEmpty then throw (.invalidDbFile s!"{name}: empty export file")
  let es ← match Files.deserialize bs with
    | .ok es => pure es
    | .error e => throw (.decode e)
  es.forM addEntry
  pure es.length

end Shard

end ShardStore
