import ShardStore.Entry
/-!
Mutations: the changes an entry can undergo.

Every write to the store, whether it comes from a client, from a filter run or from another agent,
is one of five mutations. Each is routed by one key: a new entry by its own key, a tag or value
change by the key it changes, and a subscription by the key it waits on, since that is where the
waiting happens. A wake is what a subscription does to its subscriber once the awaited key
exists: remove or add a tag.
-/

namespace ShardStore

/-- What a subscription does to its subscriber when it fires. -/
inductive Wake where
  | removeTag (tag : String)
  | addTag (tag : String)
deriving DecidableEq, Repr, Inhabited

/-- A change to the store. -/
inductive Mutation where
  | addEntry (entry : Entry)
  | addTag (key : Key) (tag : String)
  | removeTag (key : Key) (tag : String)
  | updateValue (key : Key) (value : Bytes)
  /-- Wake `subscriber` once `waitKey` exists. -/
  | subscribe (subscriber waitKey : Key) (wake : Wake)
deriving DecidableEq, Repr, Inhabited

namespace Mutation

/-- The key whose owner takes the mutation. -/
def routeKey : Mutation → Key
  | addEntry e => e.key
  | addTag k _ | removeTag k _ | updateValue k _ => k
  | subscribe _ w _ => w

/-- The mutation a fired wake makes on its subscriber. -/
def ofWake (subscriber : Key) : Wake → Mutation
  | .removeTag t => removeTag subscriber t
  | .addTag t => addTag subscriber t

end Mutation

end ShardStore
