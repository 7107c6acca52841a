import ShardStore.Store.Entries
import ShardStore.Mutation
/-!
What a filter run may read.

A filter reads the entry it runs on directly. Anything else goes through a `Lookup`: the value
under a key (which on an agent may be asked of the key's owner, and so may fail) and the local
entries carrying given tags. A run's writes are never applied while it runs; they are returned
as mutations, in the order the run made them.
-/

namespace ShardStore

/-- Reading other entries during a filter run. -/
structure Lookup where
  /-- The value under a key, if the key has an entry. -/
  value : Key → Outcome (Option Bytes)
  /-- The local entries carrying every one of the tags, in key order. -/
  entries : List String → List Entry

namespace Lookup

/-- Reading straight from one store. -/
def ofStore (s : EntryStore) : Lookup :=
  ⟨fun k => .ok ((s.get? k).map (·.value)), s.query⟩

end Lookup

/-- The tag a filter leaves on entries it has finished with. -/
def doneTag (filter : String) : String := filter ++ ":done"

/-- The tag a filter leaves on entries it could not handle. -/
def failTag (filter : String) : String := filter ++ ":fail"

end ShardStore
