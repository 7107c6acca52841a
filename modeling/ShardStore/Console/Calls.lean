import ShardStore.Console.Form
import ShardStore.Mesh.Client
/-!
Client calls by name, for any way of asking agents.

A call names a client operation and gives its arguments; `at` and `peer` name agents the way the
session does. The answer of a call is the operation's value as JSON, or its fault; calls that may
build the client's ring also give back the client.
-/

namespace ShardStore

namespace Console

/-- The fields of an outcome: the value under `result`, or the fault's error object. -/
def resultFields : Outcome Json → List (String × Json)
  | .ok v => [("result", v)]
  | .error f => [("code", .str f.code), ("error", .str ("PandoError::" ++ f.kindName)),
      ("message", .str f.message)]

section

variable {M : Type → Type} [Monad M] [MonadExcept Fault M]
variable (ask : Address → Message → M Reply)

/-- Run a client call that keeps the client as it is. -/
def plain {α : Type} (c : Client) (x : M α) (show_ : α → Json) :
    M (Outcome Json × Client) := do
  return ((← Client.attempt x).map show_, c)

/-- Run a client call that may change the client. -/
def withClient {α : Type} (x : M (Outcome α × Client)) (show_ : α → Json) :
    M (Outcome Json × Client) := do
  let (r, c) ← x
  return (r.map show_, c)

/-- The JSON of nothing. -/
def unit (_ : Unit) : Json := .null

/-- Read a client call and the change it makes. -/
def clientCall (ref : Json → Answer Address) (polls : Nat) (c : Client) (j : Json) :
    Answer (M (Outcome Json × Client)) := do
  let at_ ← match opt j "at" with
    | some a => ref a
    | none => pure c.agent
  let entriesJ := fun (es : List Entry) => Json.arr (es.map entryJson)
  match ← str (← field j "call") with
  | "neighbors" => pure (plain c (Client.neighbors ask c) fun ps => .arr (ps.map addressJson))
  | "refresh_ring" => pure (withClient (do
      match ← Client.attempt (Client.refreshRing ask c) with
      | .ok c => pure (.ok (), c)
      | .error e => pure (.error e, c)) unit)
  | "owner" => do
    let k ← key (← field j "key")
    pure (withClient (Client.owner ask c k) addressJson)
  | "synchronizer" => pure (withClient (Client.synchronizer ask c) addressJson)
  | "num_neighbors" => pure (plain c (Client.numNeighbors ask at_) .nat)
  | "ring_size" => pure (plain c (Client.ringSize ask at_) .nat)
  | "add_neighbor" => do
    let peer ← ref (← field j "peer")
    pure (plain c (Client.addNeighbor ask at_ peer) unit)
  | "add_entry" => do
    let e ← entry (← field j "entry")
    if e.key == Key.unassigned then refuse "unkeyed entries are not allowed"
    pure (withClient (Client.addEntry ask c e) unit)
  | "add_tag" => do
    let k ← key (← field j "key")
    let t ← str (← field j "tag")
    pure (withClient (Client.addTag ask c k t) unit)
  | "remove_tag" => do
    let k ← key (← field j "key")
    let t ← str (← field j "tag")
    pure (withClient (Client.removeTag ask c k t) unit)
  | "update_value" => do
    let k ← key (← field j "key")
    let v ← bytesD j "value"
    pure (withClient (Client.updateValue ask c k v) unit)
  | "get_entry_by_key" => do
    let k ← key (← field j "key")
    pure (plain c (Client.getEntryByKey ask c k) fun v => (v.map bytesJson).getD .null)
  | "db_size" => pure (plain c (Client.dbSize ask at_) .nat)
  | "total_size" => pure (plain c (Client.totalSize ask c) .nat)
  | "state" => pure (plain c (Client.state ask at_) .str)
  | "query" => do
    let tags ← strs (← field j "tags")
    pure (plain c (Client.query ask at_ tags) entriesJ)
  | "query_all" => do
    let tags ← strs (← field j "tags")
    pure (plain c (Client.queryAll ask c tags) entriesJ)
  | "get_entries" => pure (plain c (Client.getEntries ask at_) entriesJ)
  | "installed_filters" =>
    pure (plain c (Client.installedFilters ask at_) fun fs => .arr (fs.map .str))
  | "print_entries" => pure (plain c (Client.printEntries ask at_) unit)
  | "add_filter_dir" => do
    let b ← str (← field j "bundle")
    pure (plain c (Client.addFilterDir ask c b) unit)
  | "install_filter" => do
    let f ← str (← field j "name")
    pure (plain c (Client.installFilter ask c f) unit)
  | "clear_filters" => pure (plain c (Client.clearFilters ask c) unit)
  | "add_db_file" => do
    let p ← str (← field j "path")
    pure (plain c (Client.addDbFile ask c p) .nat)
  | "export_db" => do
    let d ← str (← field j "dir")
    pure (plain c (Client.exportDb ask c d) unit)
  | "import_db" => do
    let d ← str (← field j "dir")
    pure (plain c (Client.importDb ask c d) .nat)
  | "process" => pure (withClient (Client.process ask c) unit)
  | "processing" => pure (plain c (Client.processing ask at_) .bool)
  | "wait_idle" => pure (withClient (Client.waitIdle ask c polls) unit)
  | other => refuse s!"unknown call {other}"

end

end Console

end ShardStore
