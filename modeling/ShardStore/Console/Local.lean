import ShardStore.Console.Units
import ShardStore.Shard.Alone
/-!
A session with one shard processing on its own.

The shard starts empty, with the request's byte limit and the catalog of its bundles. Steps run
in order; a step that fails answers its error object and later steps run on the state the
failure left.

Keys the shard drew for entries without one are shown as `\x7b"random": n\x7d`, numbered in
the order they were drawn, and listings put such entries last, in that order.
-/

namespace ShardStore

namespace Console

/-- How a drawn key is shown: its draw number. -/
def drawnKeyJson (g : KeySource) (k : Key) : Json :=
  match g.drawNumber? k with
  | some n => Json.record [("random", .nat n)]
  | none => keyJson k

/-- Entries in store order, drawn keys last in draw order. -/
def listing (g : KeySource) (es : List Entry) : Json :=
  let plain := es.filter fun e => (g.drawNumber? e.key).isNone
  let drawn := (es.filterMap fun e => (g.drawNumber? e.key).map (·, e)).toArray.qsort
    (fun a b => a.1 < b.1) |>.toList.map (·.2)
  .arr ((plain ++ drawn).map (entryJsonWith (drawnKeyJson g)))

/-- Run a step's operation on the session's state: its value, or the error it stopped at. -/
def runOp {α : Type} (op : EStateM Fault LocalDb α) (d : LocalDb) : Outcome α × LocalDb :=
  match op d with
  | .ok x d => (.ok x, d)
  | .error e d => (.error e, d)

/-- One step of a shard session. -/
def localStep (d : LocalDb) (j : Json) : Answer (Json × LocalDb) := do
  let g := d.shard.keys
  let kj := drawnKeyJson d.shard.keys
  let mj (m : Mutation) : Json := mutationJsonWith kj m
  let on {α : Type} (op : ShardOp α) (show_ : α → Json) : Answer (Json × LocalDb) :=
    let (r, d) := runOp (LocalDb.onShard op) d
    pure (outcomeJson show_ r, d)
  let s := d.shard
  match ← stepOp j with
  | "add_entry" => on (Shard.addEntry (← entry (← field j "entry"))) fun _ => .null
  | "stage" => do
    let m ← mutation (← field j "mutation")
    let (r, d) := runOp (LocalDb.onShard (Shard.stage m)) d
    pure (outcomeJson (fun _ => Json.nat d.shard.staged.size) r, d)
  | "stage_close" => on Shard.stageClose Json.nat
  | "commit_staged" => do
    let (r, d) := runOp (LocalDb.onShard Shard.commitStaged) d
    pure (outcomeJson (fun (c : CloseReport) => Json.record [("committed", .nat c.committed),
      ("wakes", .arr (c.wakes.map (mutationJsonWith (drawnKeyJson d.shard.keys))))]) r, d)
  | "apply" => do
    let m ← mutation (← field j "mutation")
    let (r, d) := runOp (LocalDb.onShard (Shard.apply m)) d
    pure (outcomeJson (fun ms => Json.arr (ms.map (mutationJsonWith (drawnKeyJson d.shard.keys)))) r, d)
  | "apply_local" => on (Shard.applyLocal (← mutation (← field j "mutation"))) fun _ => .null
  | "subscribe" =>
    on (Shard.subscribe (← key (← field j "subscriber")) (← key (← field j "wait_key"))
      (← wake (← field j "wake"))) fun m => (m.map mj).getD .null
  | "sweep" =>
    pure (outcomeJson (fun (w : Sweep) => Json.record [("runs", .nat w.runs),
      ("produced", .bool !w.mutations.isEmpty), ("mutations", .arr (w.mutations.map mj))])
      (s.sweep (Lookup.ofStore s.store)), d)
  | "process_once" => on Shard.processOnce Json.bool
  | "process" => on (Shard.process) Json.nat
  | "alg_process" => do
    let (r, d) := runOp LocalDb.process d
    pure (outcomeJson (fun (p : ProcessReport) => Json.record [("seq_rounds", .nat p.rounds),
      ("iterations", .nat p.iterations), ("effects", .nat p.effects)]) r, d)
  | "disable_group_filters" => pure (.bool true, { d with skipGroups := true })
  | "add_filter_dir" => on (Shard.addFilterDir (← str (← field j "bundle"))) Json.nat
  | "install_filter" => on (Shard.installFilter (← str (← field j "name"))) fun _ => .null
  | "clear_filters" => on Shard.clearFilters fun _ => .null
  | "installed" => pure (.arr (s.filters.names.map .str), d)
  | "has_group_filters" => pure (.bool s.filters.hasGroups, d)
  | "size" => pure (.nat s.store.size, d)
  | "get_entry" =>
    return (((s.store.get? (← key (← field j "key"))).map (entryJsonWith kj)).getD .null, d)
  | "get_value" =>
    return (((s.store.get? (← key (← field j "key"))).map (bytesJson ·.value)).getD .null, d)
  | "query" => return (listing g (s.store.query (← strsD j "tags")), d)
  | "entries_by_tags" => do
    let lo ← match opt j "b_min" with
      | some v => do pure (some (← i64 v))
      | none => pure none
    let hi ← match opt j "b_max" with
      | some v => do pure (some (← i64 v))
      | none => pure none
    let es := (s.store.query (← strsD j "tags")).filter fun e =>
      (lo.all fun l => l ≤ e.key.b) && (hi.all fun h => e.key.b ≤ h)
    pure (listing g es, d)
  | "entry_by_tags" =>
    return (((s.store.query (← strsD j "tags")).head?.map (entryJsonWith kj)).getD .null, d)
  | "entries" => pure (listing g s.store.entries, d)
  | "serialize" | "export" =>
    if s.store.entries.any fun e => (g.drawNumber? e.key).isSome then
      pure (Json.record [("len", .nat s.serialize.length)], d)
    else pure (Json.record [("hex", hexJson s.serialize)], d)
  | "import" => on (Shard.importDb "<file>" (← hex (← field j "hex"))) Json.nat
  | "add_db_file" => on (Shard.addDbFile "<file>" (← bytesD j "text")) Json.nat
  | "used_bytes" => pure (.nat s.store.used, d)
  | "staged_len" => pure (.nat s.staged.size, d)
  | "subscriptions" => pure (.nat s.waiters.size, d)
  | "waiting_on" =>
    return (.arr ((s.waiters.waitingOn (← key (← field j "key"))).map (waiterJson kj)), d)
  | "random_key" =>
    let (k, keys) := s.keys.next
    pure (Json.record [("is_random", .bool k.isRandom)], { d with shard := { s with keys } })
  | other => refuse s!"unknown step {other}"

/-- A shard session. -/
def localOp (req : Json) : Answer Json := do
  let catalog ← catalogOf req
  let limit : Option Nat ← match opt req "limit" with
    | some l => do
      let n ← natBelow 64 l
      pure (some n)
    | none => pure none
  let d : LocalDb := ⟨Shard.make (EntryStore.withLimit limit) catalog (KeySource.ofSeed 0),
    Engine.empty, false⟩
  let (rs, d) ← session (← stepsOf req) d localStep
  let s := d.shard
  return Json.record [("results", .arr rs), ("final", Json.record [
    ("entries", listing s.keys s.store.entries), ("used_bytes", .nat s.store.used),
    ("staged", .nat s.staged.size), ("subscriptions", .nat s.waiters.size),
    ("installed", .arr (s.filters.names.map .str))])]

end Console

end ShardStore
