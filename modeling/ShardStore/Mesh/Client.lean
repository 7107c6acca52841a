import ShardStore.Ring
import ShardStore.Wire.Reply
/-!
A client of a mesh.

A client talks to one entry agent for most requests and sends writes straight to the owner of
their key, by a ring it builds from the entry agent's list of agents. The ring is built on first
need and kept; finding the synchronizer always builds it afresh. Each call expects one kind of
reply: an error reply is a failure of the agent, and any other kind is a protocol error that
shows the reply.

The client is written for any way of asking an agent and waiting for its reply (`ask`), in any
monad that can fail with a fault. Calls that may build the ring give back the client as it
stands, also when the call fails after the ring was built.
-/

namespace ShardStore

/-- A client: its entry agent, the virtual nodes its ring uses, and its ring once built. -/
structure Client where
  agent : Address
  vnodes : UInt16
  ring : Option Ring
deriving Inhabited

namespace Client

/-- A client without a ring yet. -/
def make (agent : Address) (vnodes : UInt16) : Client := ⟨agent, vnodes, none⟩

/-- The fault of a reply of the wrong kind. -/
def unexpected (op : String) (r : Reply) : Fault :=
  .protocolState s!"unexpected reply to {op}: {r.literal}"

/-- The owner of a key by the built ring. -/
def ownerIn (c : Client) (k : Key) : Outcome Address :=
  match c.ring with
  | some r => r.owner k
  | none => .error .emptyRing

section

variable {M : Type → Type} [Monad M] [MonadExcept Fault M]
variable (ask : Address → Message → M Reply)

/-- Run a step that may fail, keeping its outcome. -/
def attempt {α : Type} (x : M α) : M (Outcome α) :=
  tryCatch (do pure (.ok (← x))) fun e => pure (.error e)

/-- Ask for an acknowledgement. -/
def ack (dest : Address) (msg : Message) (op : String) : M Unit := do
  match ← ask dest msg with
  | .ack => pure ()
  | r => throw (unexpected op r)

/-- Ask for a count. -/
def count (dest : Address) (msg : Message) (op : String) : M Nat := do
  match ← ask dest msg with
  | .count n => pure n.toNat
  | r => throw (unexpected op r)

/-- Ask for a text. -/
def text (dest : Address) (msg : Message) (op : String) : M String := do
  match ← ask dest msg with
  | .text s => pure s
  | r => throw (unexpected op r)

/-- Ask for entries. -/
def entries (dest : Address) (msg : Message) (op : String) : M (List Entry) := do
  match ← ask dest msg with
  | .entries es => pure es
  | r => throw (unexpected op r)

/-- The entry agent's list of agents. -/
def neighbors (c : Client) : M (List Address) := do
  match ← ask c.agent .getNeighbors with
  | .peers ps => pure ps
  | r => throw (unexpected "GET_NEIGHBORS" r)

/-- Build the ring afresh from the entry agent's list. -/
def refreshRing (c : Client) : M Client := do
  let peers ← neighbors ask c
  pure { c with ring := some ((Ring.empty c.vnodes).build peers) }

/-- Build the ring unless it is built. -/
def ensureRing (c : Client) : M Client :=
  if c.ring.isSome then pure c else refreshRing ask c

/-- Find the owner of a key and act on it. -/
def withOwner {α : Type} (c : Client) (k : Key) (f : Address → M α) :
    M (Outcome α × Client) := do
  match ← attempt (ensureRing ask c) with
  | .error e => pure (.error e, c)
  | .ok c =>
    match c.ownerIn k with
    | .error e => pure (.error e, c)
    | .ok a => pure (← attempt (f a), c)

/-- The owner of a key. -/
def owner (c : Client) (k : Key) : M (Outcome Address × Client) := withOwner ask c k pure

/-- Find the synchronizer, with the ring built afresh, and act on it. -/
def withSynchronizer {α : Type} (c : Client) (f : Address → M α) :
    M (Outcome α × Client) := do
  match ← attempt (refreshRing ask c) with
  | .error e => pure (.error e, c)
  | .ok c =>
    match c.ownerIn Key.sync with
    | .error e => pure (.error e, c)
    | .ok a => pure (← attempt (f a), c)

/-- The synchronizer. -/
def synchronizer (c : Client) : M (Outcome Address × Client) := withSynchronizer ask c pure

/-- The number of agents an agent knows. -/
def numNeighbors (a : Address) : M Nat := count ask a .numNeighbors "NUM_NEIGHBORS"

/-- The ring size of an agent. -/
def ringSize (a : Address) : M Nat := count ask a .ringSize "RING_SIZE"

/-- Tell an agent of another. -/
def addNeighbor (a peer : Address) : M Unit := ack ask a (.addNeighbor peer) "ADD_NEIGHBOR"

/-- Add an entry at the owner of its key. -/
def addEntry (c : Client) (e : Entry) : M (Outcome Unit × Client) :=
  withOwner ask c e.key fun o => ack ask o (.addEntry e) "ADD_ENTRY"

/-- Tag an entry at its owner. -/
def addTag (c : Client) (k : Key) (t : String) : M (Outcome Unit × Client) :=
  withOwner ask c k fun o => ack ask o (.addTag k t) "ADD_TAG_TO_ENTRY"

/-- Untag an entry at its owner. -/
def removeTag (c : Client) (k : Key) (t : String) : M (Outcome Unit × Client) :=
  withOwner ask c k fun o => ack ask o (.removeTag k t) "REMOVE_TAG_FROM_ENTRY"

/-- Replace an entry's value at its owner. -/
def updateValue (c : Client) (k : Key) (v : Bytes) : M (Outcome Unit × Client) :=
  withOwner ask c k fun o => ack ask o (.updateValue k v) "UPDATE_ENTRY_VAL"

/-- The value under a key, asked of the entry agent. -/
def getEntryByKey (c : Client) (k : Key) : M (Option Bytes) := do
  match ← ask c.agent (.getEntryByKey k) with
  | .value v => pure v
  | r => throw (unexpected "GET_ENTRY_BY_KEY" r)

/-- The number of entries at an agent. -/
def dbSize (a : Address) : M Nat := count ask a .dbSize "DB_SIZE"

/-- The number of entries over every agent the entry agent knows. -/
def totalSize (c : Client) : M Nat := do
  (← neighbors ask c).foldlM (fun t a => do pure (t + (← dbSize ask a))) 0

/-- An agent's stage. -/
def state (a : Address) : M String := text ask a .getState "GET_STATE"

/-- The entries at an agent carrying every tag. -/
def query (a : Address) (tags : List String) : M (List Entry) :=
  entries ask a (.query tags) "QUERY"

/-- The entries carrying every tag over every agent the entry agent knows, agent by agent. -/
def queryAll (c : Client) (tags : List String) : M (List Entry) := do
  (← neighbors ask c).foldlM (fun acc a => do pure (acc ++ (← query ask a tags))) []

/-- All entries at an agent. -/
def getEntries (a : Address) : M (List Entry) := entries ask a .getEntries "GET_ENTRIES"

/-- The filters installed at an agent. -/
def installedFilters (a : Address) : M (List String) := do
  let joined ← text ask a .installedFilters "INSTALLED_FILTERS"
  pure ((joined.splitOn ",").filter (· != ""))

/-- Have an agent print its entries. -/
def printEntries (a : Address) : M Unit := ack ask a .printEntries "PRINT_ENTRIES"

/-- Make a bundle available everywhere. -/
def addFilterDir (c : Client) (b : String) : M Unit :=
  ack ask c.agent (.addFilterDirBroadcast b) "ADD_FILTER_DIR_BROADCAST"

/-- Install a filter everywhere. -/
def installFilter (c : Client) (f : String) : M Unit :=
  ack ask c.agent (.installFilterBroadcast f) "INSTALL_FILTER_BROADCAST"

/-- Uninstall every filter everywhere. -/
def clearFilters (c : Client) : M Unit :=
  ack ask c.agent .clearFiltersBroadcast "CLEAR_FILTERS_BROADCAST"

/-- Read a text file of entries in through the entry agent; how many. -/
def addDbFile (c : Client) (path : String) : M Nat :=
  count ask c.agent (.addDbFile path) "ADD_DB_FILE"

/-- Have every agent export into a directory. -/
def exportDb (c : Client) (dir : String) : M Unit :=
  ack ask c.agent (.exportDbBroadcast dir) "EXPORT_DB_BROADCAST"

/-- Share a directory's export files out over the agents; how many files. -/
def importDb (c : Client) (dir : String) : M Nat :=
  count ask c.agent (.importDbDistribute dir) "IMPORT_DB_DISTRIBUTE"

/-- Whether an agent sees a run going on. -/
def processing (a : Address) : M Bool := do
  match ← ask a .processing with
  | .flag b => pure b
  | r => throw (unexpected "PROCESSING" r)

/-- Start a run at the synchronizer. -/
def process (c : Client) : M (Outcome Unit × Client) :=
  withSynchronizer ask c fun s => ack ask s .processBroadcast "PROCESS_BROADCAST"

/-- Ask an agent up to `polls` times whether a run is going on, until it says no; a timeout if
it still says yes at the last time. -/
def pollIdle (a : Address) : Nat → M Unit
  | 0 => throw (.timeout a)
  | n + 1 => do
    if ← processing ask a then
      if n = 0 then throw (.timeout a) else pollIdle a n

/-- Wait, polling at most `polls` times, until the synchronizer sees no run going on. -/
def waitIdle (c : Client) (polls : Nat) : M (Outcome Unit × Client) :=
  withSynchronizer ask c fun s => pollIdle ask s polls

end

end Client

end ShardStore
