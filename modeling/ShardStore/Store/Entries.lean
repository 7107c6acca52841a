import ShardStore.Entry
/-!
The entry store of one agent.

Entries are kept in a list strictly ascending by key, so a key has at most one entry and every
listing comes out in key order. The store counts the bytes it holds: adding an entry charges its
binary length, a merge replaces the old length by the merged one, a new tag costs eight bytes
plus its length and a removed one gives them back, and a new value is charged by the change in
value length. A store may have a limit; a change that would take the count over it is refused
with `outOfSpace`, which reports the bytes the change asked for (not the net change), the count
before it and the limit, and leaves the store as it was.

Beside the entries the store keeps a tag index: for each tag, the keys of the entries that carry
it, ascending. A write indexes the tags it adds and unindexes the one it removes, and a tag whose
set empties leaves the index. A query by tags looks their sets up, takes the smallest and keeps
the keys that are in all the others.
-/

namespace ShardStore

/-- What inserting an entry did. -/
inductive InsertOutcome where
  | inserted
  | unchanged
  | merged
deriving DecidableEq, Repr

/-- The entries of one agent, their tag index, their byte count and an optional limit. -/
structure EntryStore where
  entries : List Entry
  byTag : List (String × List Key)
  used : Nat
  limit : Option Nat
deriving Inhabited

namespace EntryStore

/-- An empty store with an optional limit. -/
def withLimit (limit : Option Nat) : EntryStore := ⟨[], [], 0, limit⟩

/-- The entry under a key. -/
def get? (s : EntryStore) (k : Key) : Option Entry := s.entries.find? (·.key = k)

/-- Whether a key has an entry. -/
def contains (s : EntryStore) (k : Key) : Bool := (s.get? k).isSome

/-- The number of entries. -/
def size (s : EntryStore) : Nat := s.entries.length

/-- The keys in order. -/
def keys (s : EntryStore) : List Key := s.entries.map (·.key)

/-- Put an entry into a key-ascending list, replacing the entry under its key. -/
def put (e : Entry) : List Entry → List Entry
  | [] => [e]
  | d :: ds =>
    match Key.compare e.key d.key with
    | .lt => e :: d :: ds
    | .eq => e :: ds
    | .gt => d :: put e ds

/-- Change the entry under a key. -/
def modify (k : Key) (f : Entry → Entry) : List Entry → List Entry
  | [] => []
  | d :: ds => if d.key = k then f d :: ds else d :: modify k f ds

/-- Put a key into a key-ascending list, unless it is there already. -/
def insertKey (k : Key) : List Key → List Key
  | [] => [k]
  | j :: js =>
    match Key.compare k j with
    | .lt => k :: j :: js
    | .eq => j :: js
    | .gt => j :: insertKey k js

/-- Change the keys indexed under a tag; a tag left with no keys leaves the index. -/
def alterTag (t : String) (f : List Key → List Key) :
    List (String × List Key) → List (String × List Key)
  | [] => if f [] = [] then [] else [(t, f [])]
  | (u, ks) :: rest =>
    if u = t then (if f ks = [] then rest else (u, f ks) :: rest)
    else (u, ks) :: alterTag t f rest

/-- Index a key under a tag. -/
def indexTag (k : Key) (t : String) (idx : List (String × List Key)) : List (String × List Key) :=
  alterTag t (insertKey k) idx

/-- Take a key out of the set of a tag. -/
def unindexTag (k : Key) (t : String) (idx : List (String × List Key)) :
    List (String × List Key) :=
  alterTag t (·.filter (· ≠ k)) idx

/-- Index the key of an entry under each of its tags. -/
def indexTags (e : Entry) (idx : List (String × List Key)) : List (String × List Key) :=
  e.tags.toList.foldl (fun idx t => indexTag e.key t idx) idx

/-- The keys indexed under a tag. -/
def tagged (s : EntryStore) (t : String) : Option (List Key) := s.byTag.lookup t

/-- The count after releasing `release` bytes and taking `grow`, if within the limit. -/
def reserve (s : EntryStore) (grow release : Nat) : Outcome Nat :=
  let next := s.used - release + grow
  match s.limit with
  | some l => if next > l then .error (.outOfSpace grow s.used l) else .ok next
  | none => .ok next

/-- Insert an entry, merging it into the entry under its key if there is one. -/
def insert (s : EntryStore) (e : Entry) : Outcome (InsertOutcome × EntryStore) :=
  match s.get? e.key with
  | none => do
    let used ← s.reserve e.size 0
    pure (.inserted, { s with entries := put e s.entries, byTag := indexTags e s.byTag, used })
  | some old =>
    match old.merge e with
    | (_, .unchanged) => pure (.unchanged, s)
    | (m, .merged) => do
      let used ← s.reserve m.size old.size
      pure (.merged, { s with entries := put m s.entries, byTag := indexTags m s.byTag, used })

/-- Add a tag to the entry under a key; false when there is none or it has the tag. -/
def addTag (s : EntryStore) (k : Key) (t : String) : Outcome (Bool × EntryStore) :=
  match s.get? k with
  | none => pure (false, s)
  | some e =>
    if e.hasTag t then pure (false, s)
    else do
      let used ← s.reserve (8 + t.utf8ByteSize) 0
      pure (true, { s with entries := modify k (fun d => (d.addTag t).1) s.entries,
                           byTag := indexTag k t s.byTag, used })

/-- Remove a tag from the entry under a key; whether it was there. -/
def removeTag (s : EntryStore) (k : Key) (t : String) : Bool × EntryStore :=
  match s.get? k with
  | some e =>
    if e.hasTag t then
      (true, { s with entries := modify k (fun d => (d.removeTag t).1) s.entries,
                      byTag := unindexTag k t s.byTag, used := s.used - (8 + t.utf8ByteSize) })
    else (false, s)
  | none => (false, s)

/-- Replace the value of the entry under a key; false when there is none. -/
def setValue (s : EntryStore) (k : Key) (v : Bytes) : Outcome (Bool × EntryStore) :=
  match s.get? k with
  | none => pure (false, s)
  | some e => do
    let used ← s.reserve v.length e.value.length
    pure (true, { s with entries := modify k (fun d => { d with value := v }) s.entries, used })

/-- Drop every entry and its index, and reset the count. -/
def clear (s : EntryStore) : EntryStore := { s with entries := [], byTag := [], used := 0 }

/-- The keys carrying every one of the tags, in key order; every key for no tags. The sets of
the tags come from the index, and the smallest is filtered by membership in the others. -/
def keysWithTags (s : EntryStore) (tags : List String) : List Key :=
  match tags.mapM s.tagged with
  | none => []
  | some sets =>
    match sets.mergeSort (fun a b => a.length ≤ b.length) with
    | [] => s.keys
    | smallest :: rest => smallest.filter fun k => rest.all (·.contains k)

/-- The entries of `keysWithTags`. -/
def query (s : EntryStore) (tags : List String) : List Entry :=
  (s.keysWithTags tags).filterMap s.get?

end EntryStore

end ShardStore
