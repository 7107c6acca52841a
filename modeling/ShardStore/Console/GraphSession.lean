import ShardStore.Console.Units
import ShardStore.Graph.Engine
/-!
A session with the graph engine alone.

The request's entries go into an unbounded store, which also answers the programs' lookups, and
its `filters` name the group filters to set up with. Steps drive the engine by hand: collect
vertices, set up, run and deliver rounds, and look at vertices; the mutations the programs make
are collected until a step takes them.
-/

namespace ShardStore

namespace Console

/-- The state of a graph session. -/
structure GraphSession where
  engine : Engine
  effects : Array Mutation
  last : Option RoundOutcome

/-- A vertex as a pair. -/
def vertexJson (v : Vertex) : Json := .arr [.nat v.1.toNat, .int v.2.toInt]

/-- A vertex from a pair. -/
def vertexOf (j : Json) : Answer Vertex := do
  let (g, v) ← pair j
  return (← u64 g, ← i64 v)

/-- The name of a vertex state in answers. -/
def stateName : VertexState → String
  | .active => "Active"
  | .inactive => "Inactive"

/-- The group filter of a name, from any bundle. -/
def groupFilterNamed (c : Catalog) (name : String) : Answer GroupFilter :=
  match (c.bundles.flatMap (·.2)).find? (·.name = name) with
  | some (Filter.group f) => pure f
  | _ => refuse s!"no group filter {name}"

/-- Rounds with delivery until one ends inactive or `max` have run. -/
def runRounds (look : Lookup) : GraphSession → Nat → List Json → GraphSession × List Json × Json
  | s, 0, acc => (s, acc, .null)
  | s, n + 1, acc =>
    let (e, effects, r) := s.engine.round look
    let s := { s with engine := e, effects := s.effects ++ effects }
    match r with
    | .error f => (s, acc, faultJson f)
    | .ok out =>
      let s := { s with engine := s.engine.deliver out.iter out.outgoing.toList, last := some out }
      let acc := acc ++ [Json.record [("iter", .nat out.iter), ("active", .bool out.active),
        ("runs", .nat out.runs), ("sent", .nat out.outgoing.size)]]
      if out.active then runRounds look s n acc else (s, acc, .null)

/-- A graph session. -/
def graphOp (req : Json) : Answer Json := do
  let catalog ← catalogOf req
  let entries ← (← listD req "entries").mapM fun e => entry e
  let store := entries.foldl (fun s e =>
    match s.insert e with
    | .ok (_, s) => s
    | .error _ => s) (EntryStore.withLimit none)
  let filters ← (← strs (← field req "filters")).mapM (groupFilterNamed catalog)
  let look := Lookup.ofStore store
  let (rs, s) ← session (← stepsOf req) (⟨Engine.empty, #[], none⟩ : GraphSession) fun s j => do
    match ← stepOp j with
    | "local_vertices" =>
      let vs := Engine.localVertices store
      pure (.arr (vs.map vertexJson), { s with engine := s.engine.addVertices vs })
    | "add_vertices" => do
      let vs ← (← arr (← field j "vertices")).mapM vertexOf
      let e := s.engine.addVertices vs
      pure (.nat e.vertices.length, { s with engine := e })
    | "setup" =>
      let (e, r) := s.engine.setup store filters look
      pure (outcomeJson Json.nat r, { s with engine := e })
    | "round" =>
      let (e, effects, r) := s.engine.round look
      let s := { s with engine := e, effects := s.effects ++ effects }
      match r with
      | .error f => pure (faultJson f, s)
      | .ok out =>
        pure (Json.record [("iter", .nat out.iter), ("active", .bool out.active),
          ("runs", .nat out.runs), ("outgoing", .arr (out.outgoing.toList.map vertexMessageJson))],
          { s with last := some out })
    | "deliver_last" =>
      match s.last with
      | some out =>
        pure (.nat out.outgoing.size,
          { s with engine := s.engine.deliver out.iter out.outgoing.toList, last := none })
      | none => pure (.null, s)
    | "deliver" =>
      let ms ← (← arr (← field j "messages")).mapM vertexMessage
      return (.null, { s with engine := s.engine.deliver (← natBelow 64 (← field j "iter")) ms })
    | "run" =>
      let (s, rounds, err) := runRounds look s (← natD j "max" 200) []
      pure (Json.record [("rounds", .arr rounds), ("error", err)], s)
    | "state" =>
      let v : Vertex := (← u64 (← field j "graph"), ← i64 (← field j "vtx"))
      pure (Json.record [("state", ((s.engine.state? v).map (Json.str ∘ stateName)).getD .null),
        ("out_degree", ((s.engine.outDegree? v).map Json.nat).getD .null)], s)
    | "info" =>
      pure (Json.record [("iter", .nat s.engine.iter), ("ready", .bool s.engine.ready),
        ("vertex_count", .nat s.engine.slots.size),
        ("vertices", .arr (s.engine.vertices.map vertexJson))], s)
    | "effects" => pure (.arr (s.effects.toList.map mutationJson), { s with effects := #[] })
    | "teardown" => pure (.null, { s with engine := s.engine.teardown })
    | other => refuse s!"unknown step {other}"
  return Json.record [("results", .arr rs), ("effects", .arr (s.effects.toList.map mutationJson))]

end Console

end ShardStore
