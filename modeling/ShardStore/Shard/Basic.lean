import ShardStore.Store.Entries
import ShardStore.Store.Staging
import ShardStore.Store.Waiters
import ShardStore.Filter.Catalog
/-!
A shard: one agent's store with its held mutations, its waiters, its filters and its key source.

Mutations reach a shard in two ways. Applied, a mutation changes the store at once: a new entry
is inserted (merging under an existing key) and wakes the waiters on its key, a tag or value
change touches only an existing entry, and a subscription either wakes at once (its key exists)
or waits. Staged, a mutation is held until the stage closes; closing commits new entries in key
order, then value updates, tag additions and tag removals in arrival order, and then applies the
wakes the new entries fired.

An entry without a key gets a fresh random key the moment it is applied or staged.

Every operation is a state transition that may fail; a failure keeps the state reached when it
happened, like a store changed in place.
-/

namespace ShardStore

/-- One agent's store and what goes with it. -/
structure Shard where
  store : EntryStore
  staged : Staged
  waiters : Waiters
  filters : FilterSet
  keys : KeySource
deriving Inhabited

/-- A shard operation: a transition that may fail part way. -/
abbrev ShardOp (α : Type) := EStateM Fault Shard α

/-- What closing a stage did: how many held mutations were committed, and the wakes fired. -/
structure CloseReport where
  committed : Nat
  wakes : List Mutation
deriving Inhabited

namespace Shard

/-- A new shard. -/
def make (store : EntryStore) (catalog : Catalog) (keys : KeySource) : Shard :=
  ⟨store, Staged.empty, Waiters.empty, FilterSet.ofCatalog catalog, keys⟩

/-- Run a store change that may fail. -/
def onStore {α : Type} (f : EntryStore → Outcome (α × EntryStore)) : ShardOp α := do
  let s ← get
  match f s.store with
  | .ok (x, store) => do
    set { s with store }
    pure x
  | .error e => throw e

/-- Give an entry without a key a fresh random key. -/
def assignKey (e : Entry) : ShardOp Entry := do
  let s ← get
  let (k, keys) := s.keys.assign e.key
  set { s with keys }
  pure { e with key := k }

/-- Wake `subscriber` at once if `waitKey` exists; otherwise register it as waiting. -/
def subscribe (subscriber waitKey : Key) (wake : Wake) : ShardOp (Option Mutation) := do
  let s ← get
  if s.store.contains waitKey then pure (some (Mutation.ofWake subscriber wake))
  else do
    set { s with waiters := s.waiters.register waitKey subscriber wake }
    pure none

/-- Apply a mutation now; the follow-up mutations it causes. -/
def apply : Mutation → ShardOp (List Mutation)
  | .addEntry e => do
    let e ← assignKey e
    let _ ← onStore (·.insert e)
    let s ← get
    let (wakes, waiters) := s.waiters.fire e.key
    set { s with waiters }
    pure wakes
  | .addTag k t => do
    let _ ← onStore (·.addTag k t)
    pure []
  | .removeTag k t => do
    modify fun s => { s with store := (s.store.removeTag k t).2 }
    pure []
  | .updateValue k v => do
    let _ ← onStore (·.setValue k v)
    pure []
  | .subscribe s w r => do return (← subscribe s w r).toList

/-- Apply a mutation and, last in first out, everything it causes. A new entry only wakes waiters
it removes and a wake causes nothing, so the work list empties within the given fuel. -/
def applyLocal (m : Mutation) : ShardOp Unit := do
  let rec go : List Mutation → Nat → ShardOp Unit
    | [], _ => pure ()
    | _, 0 => pure ()
    | m :: rest, fuel + 1 => do
      let more ← apply m
      go (more.reverse ++ rest) fuel
  go [m] ((← get).waiters.size + 4)

/-- Hold a mutation until the stage closes; a subscription is handled at once and its wake, if
any, held. -/
def stage (m : Mutation) : ShardOp Unit := do
  let m : Mutation ← match m with
    | .addEntry e => do
      let e ← assignKey e
      pure (.addEntry e)
    | other => pure other
  let s ← get
  let (staged, back) := s.staged.stage m
  set { s with staged }
  match back with
  | some (.subscribe sub w r) =>
    match ← subscribe sub w r with
    | some wake => modify fun s => { s with staged := (s.staged.stage wake).1 }
    | none => pure ()
  | _ => pure ()

/-- Commit what is held: new entries in key order, then value updates, tag additions and tag
removals in arrival order. Updates and additions on missing entries are skipped uncounted. -/
def commitStaged : ShardOp CloseReport := do
  let held := (← get).staged
  modify fun s => { s with staged := Staged.empty }
  let r ← held.newEntries.foldlM (fun (r : CloseReport) e => do
    let _ ← onStore (·.insert e)
    let s ← get
    let (wakes, waiters) := s.waiters.fire e.key
    set { s with waiters }
    pure { committed := r.committed + 1, wakes := r.wakes ++ wakes }) ⟨0, []⟩
  let r ← held.valueUpdates.foldlM (fun (r : CloseReport) (k, v) => do
    if ← onStore (·.setValue k v) then pure { r with committed := r.committed + 1 } else pure r) r
  let r ← held.tagsToAdd.foldlM (fun (r : CloseReport) (k, t) => do
    if (← get).store.contains k then do
      let _ ← onStore (·.addTag k t)
      pure { r with committed := r.committed + 1 }
    else pure r) r
  held.tagsToRemove.foldlM (fun (r : CloseReport) (k, t) => do
    modify fun s => { s with store := (s.store.removeTag k t).2 }
    pure { r with committed := r.committed + 1 }) r

/-- Close a stage: commit, then apply each fired wake; the number committed. -/
def stageClose : ShardOp Nat := do
  let r ← commitStaged
  r.wakes.forM applyLocal
  pure r.committed

/-- Make a bundle's filters available; its size. -/
def addFilterDir (name : String) : ShardOp Nat := do
  let s ← get
  match s.filters.addBundle name with
  | .ok (n, filters) => do
    set { s with filters }
    pure n
  | .error e => throw e

/-- Install an available filter. -/
def installFilter (name : String) : ShardOp Unit := do
  let s ← get
  match s.filters.install name with
  | .ok filters => set { s with filters }
  | .error e => throw e

/-- Uninstall every filter. -/
def clearFilters : ShardOp Unit := modify fun s => { s with filters := s.filters.clear }

end Shard

end ShardStore
