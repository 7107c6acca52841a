import ShardStore.Console.Catalog
import ShardStore.Mesh.Barrier
import ShardStore.Store.Entries
import ShardStore.Store.Staging
import ShardStore.Store.Waiters
import ShardStore.Graph.Board
/-!
Sessions with one small unit: a list of steps run on one value, one result per step.

Each session starts from an empty unit and answers `\x7b"results": [...]\x7d`; a step that does not
make sense refuses the whole request.
-/

namespace ShardStore

namespace Console

/-- Run steps over a state, collecting one result per step. -/
def session {σ : Type} (steps : List Json) (s : σ) (step : σ → Json → Answer (Json × σ)) :
    Answer (List Json × σ) :=
  steps.foldlM (fun (rs, s) j => do
    let (r, s) ← step s j
    pure (rs ++ [r], s)) ([], s)

/-- The steps of a session request. -/
def stepsOf (req : Json) : Answer (List Json) := do arr (← field req "steps")

/-- The operation a step names. -/
def stepOp (j : Json) : Answer String := do str (← field j "op")

/-- Address counts as pairs. -/
def countsJson (cs : List (Address × Nat)) : Json :=
  .arr (cs.map fun (a, n) => .arr [addressJson a, .nat n])

/-- A session with a send ledger. -/
def ledgerOp (req : Json) : Answer Json := do
  let (rs, _) ← session (← stepsOf req) Ledger.empty fun l j => do
    match ← stepOp j with
    | "record" => return (.null, l.record (← address (← field j "to")))
    | "total" => return (.nat l.total, l)
    | "take" =>
      let (cs, l) := l.take
      return (countsJson cs, l)
    | other => refuse s!"unknown step {other}"
  return Json.record [("results", .arr rs)]

/-- A session with an agent's barrier wait. -/
def waitOp (req : Json) : Answer Json := do
  let (rs, _) ← session (← stepsOf req) Wait.empty fun w j => do
    let (r, w) ← match ← stepOp j with
      | "recv" => do
        let (b, w) := w.recordRecv
        pure (Json.bool b, w)
      | "expect" => do
        let (b, w) := w.expect (← natBelow 64 (← field j "n"))
        pure (Json.bool b, w)
      | "end" => pure (Json.null, w.finish)
      | other => refuse s!"unknown step {other}"
    return (Json.record [("r", r), ("received", .nat w.received), ("arrived", .bool w.arrived)], w)
  return Json.record [("results", .arr rs)]

/-- A session with the synchronizer's tally. -/
def tallyOp (req : Json) : Answer Json := do
  let (rs, _) ← session (← stepsOf req) Tally.empty fun t j => do
    let (r, t) ← match ← stepOp j with
      | "report" => do
        let sent ← (← listD j "sent").mapM fun p => do
          let (a, n) ← pair p
          return (← address a, ← natBelow 64 n)
        let agents ← addresses (← field j "agents")
        let (d, t) := t.report (← address (← field j "from")) (← boolD j "again" false) sent agents
        pure (((d.map countsJson).getD .null), t)
      | "arrive" => do
        let (b, t) := t.arrive (← address (← field j "from")) (← natBelow 64 (← field j "n"))
        pure (Json.bool b, t)
      | "take_again" => do
        let (b, t) := t.takeAgain
        pure (Json.bool b, t)
      | other => refuse s!"unknown step {other}"
    return (Json.record [("r", r), ("pending", .nat t.reported.length)], t)
  return Json.record [("results", .arr rs)]

/-- A session with the graph-stage exchange. -/
def exchangeOp (req : Json) : Answer Json := do
  let (rs, _) ← session (← stepsOf req) Exchange.empty fun x j => do
    match ← stepOp j with
    | "vertices" => do
      let (b, x) := x.onVertices (← address (← field j "from")) (← natBelow 64 (← field j "n"))
      pure (Json.bool b, x)
    | "compute" =>
      return (.null, x.onCompute (← address (← field j "from")) (← natBelow 64 (← field j "iter"))
        (← bool (← field j "active")))
    | "complete" => do
      let (r, x) := x.complete (← natBelow 64 (← field j "iter")) (← natBelow 64 (← field j "n"))
      pure ((r.map Json.bool).getD .null, x)
    | "reset" => pure (.null, Exchange.empty)
    | other => refuse s!"unknown step {other}"
  return Json.record [("results", .arr rs)]

/-- A session with a message board. -/
def boardOp (req : Json) : Answer Json := do
  let (rs, _) ← session (← stepsOf req) Board.empty fun b j => do
    match ← stepOp j with
    | "post" =>
      return (.null, b.post (← natBelow 64 (← field j "iter")) (← vertexMessage (← field j "msg")))
    | "discard_before" => return (.null, b.discardBefore (← natBelow 64 (← field j "iter")))
    | "clear" => pure (.null, Board.empty)
    | "inbox" =>
      let v : Vertex := (← u64 (← field j "graph"), ← i64 (← field j "vtx"))
      return (.arr ((b.inbox (← natBelow 64 (← field j "iter")) v).map hexJson), b)
    | "len" => pure (.nat b.size, b)
    | "is_empty" => pure (.bool (b.size == 0), b)
    | other => refuse s!"unknown step {other}"
  return Json.record [("results", .arr rs)]

/-- A waiter. -/
def waiterJson (kj : Key → Json) (w : Waiter) : Json :=
  Json.record [("subscriber", kj w.subscriber), ("wake", wakeJson w.wake)]

/-- A session with a set of waiters. -/
def subsOp (req : Json) : Answer Json := do
  let (rs, _) ← session (← stepsOf req) Waiters.empty fun w j => do
    match ← stepOp j with
    | "register" =>
      return (.null, w.register (← key (← field j "wait")) (← key (← field j "subscriber"))
        (← wake (← field j "wake")))
    | "fire" => do
      let (ms, w) := w.fire (← key (← field j "key"))
      pure (.arr (ms.map mutationJson), w)
    | "waiting_on" => return (.arr ((w.waitingOn (← key (← field j "key"))).map (waiterJson keyJson)), w)
    | "len" => pure (.nat w.size, w)
    | "is_empty" => pure (.bool w.isEmpty, w)
    | "clear" => pure (.null, Waiters.empty)
    | other => refuse s!"unknown step {other}"
  return Json.record [("results", .arr rs)]

/-- A session with held mutations. -/
def stagingOp (req : Json) : Answer Json := do
  let (rs, _) ← session (← stepsOf req) Staged.empty fun s j => do
    match ← stepOp j with
    | "stage" => do
      let (s, back) := s.stage (← mutation (← field j "mutation"))
      pure ((back.map fun m => Json.record [("returned", mutationJson m)]).getD .null, s)
    | "len" => pure (.nat s.size, s)
    | "take" => pure (.nat s.size, Staged.empty)
    | "is_empty" => pure (.bool (s.size == 0), s)
    | other => refuse s!"unknown step {other}"
  return Json.record [("results", .arr rs)]

/-- The name of an insert outcome. -/
def insertName : InsertOutcome → String
  | .inserted => "Inserted"
  | .unchanged => "Unchanged"
  | .merged => "Merged"

/-- A session with an entry store. -/
def storeOp (req : Json) : Answer Json := do
  let limit : Option Nat ← match opt req "limit" with
    | some l => do
      let n ← natBelow 64 l
      pure (some n)
    | none => pure none
  let (rs, s) ← session (← stepsOf req) (EntryStore.withLimit limit) fun s j => do
    let (r, s) ← match ← stepOp j with
      | "insert" => do
        match s.insert (← entry (← field j "entry")) with
        | .ok (o, s) => pure (Json.str (insertName o), s)
        | .error f => pure (faultJson f, s)
      | "add_tag" => do
        match s.addTag (← key (← field j "key")) (← str (← field j "tag")) with
        | .ok (b, s) => pure (Json.bool b, s)
        | .error f => pure (faultJson f, s)
      | "remove_tag" => do
        let (b, s) := s.removeTag (← key (← field j "key")) (← str (← field j "tag"))
        pure (Json.bool b, s)
      | "set_value" => do
        match s.setValue (← key (← field j "key")) (← bytesD j "value") with
        | .ok (b, s) => pure (Json.bool b, s)
        | .error f => pure (faultJson f, s)
      | "keys_with_tags" => do pure (.arr ((s.keysWithTags (← strsD j "tags")).map keyJson), s)
      | "query" => do pure (.arr ((s.query (← strsD j "tags")).map entryJson), s)
      | "get" => do pure (((s.get? (← key (← field j "key"))).map entryJson).getD .null, s)
      | "contains" => do pure (.bool (s.contains (← key (← field j "key"))), s)
      | "len" => pure (.nat s.size, s)
      | "clear" => pure (.null, s.clear)
      | other => refuse s!"unknown step {other}"
    return (Json.record [("r", r), ("used", .nat s.used)], s)
  return Json.record [("results", .arr rs), ("entries", .arr (s.entries.map entryJson)),
    ("keys", .arr (s.keys.map keyJson)), ("limit", (s.limit.map Json.nat).getD .null)]

end Console

end ShardStore
