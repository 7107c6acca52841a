import ShardStore.Mutation
/-!
Mutations held back until a stage closes.

New entries are kept by key, and two new entries under one key merge while held; value updates,
tag additions and tag removals are kept in arrival order. A subscription is never held: staging
hands it back. The length counts distinct new-entry keys plus every other held mutation.
-/

namespace ShardStore

/-- Held mutations. -/
structure Staged where
  newEntries : List Entry
  valueUpdates : List (Key × Bytes)
  tagsToAdd : List (Key × String)
  tagsToRemove : List (Key × String)
deriving Inhabited

namespace Staged

/-- Nothing held. -/
def empty : Staged := ⟨[], [], [], []⟩

/-- Hold a new entry, merging it into a held one under the same key. -/
def putEntry (e : Entry) : List Entry → List Entry
  | [] => [e]
  | d :: ds =>
    match Key.compare e.key d.key with
    | .lt => e :: d :: ds
    | .eq => (d.merge e).1 :: ds
    | .gt => d :: putEntry e ds

/-- Hold a mutation; a subscription is handed back instead. -/
def stage (s : Staged) : Mutation → Staged × Option Mutation
  | .addEntry e => ({ s with newEntries := putEntry e s.newEntries }, none)
  | .addTag k t => ({ s with tagsToAdd := s.tagsToAdd ++ [(k, t)] }, none)
  | .removeTag k t => ({ s with tagsToRemove := s.tagsToRemove ++ [(k, t)] }, none)
  | .updateValue k v => ({ s with valueUpdates := s.valueUpdates ++ [(k, v)] }, none)
  | m@(.subscribe ..) => (s, some m)

/-- The number of held mutations. -/
def size (s : Staged) : Nat :=
  s.newEntries.length + s.valueUpdates.length + s.tagsToAdd.length + s.tagsToRemove.length

end Staged

end ShardStore
