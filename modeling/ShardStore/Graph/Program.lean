import ShardStore.Filter.Basic
import ShardStore.Graph.Basic
/-!
Group filters and the vertex programs they start.

A group filter looks at each vertex of the graph stage and, when it applies there, starts a
vertex program on it. In every round a program sees its vertex, the round's iteration, the
vertex's out edges (the entries `(g, v, c)`), the payloads posted to it for the round, and a
lookup; it may send payloads to other vertices, make mutations, and set the vertex active or
inactive.

Two of the programs follow the gather-apply-scatter template over 64-bit words: at iteration 0
the program takes its initial value, later it folds its inbox into one word (dropping payloads
that are not eight bytes), applies it to its value, and, when the value did not change, saves
it and goes inactive. Every round it scatters a word computed from its value to each out edge.
-/

namespace ShardStore

/-- Whether a vertex wants more rounds. -/
inductive VertexState where
  | active
  | inactive
deriving DecidableEq, Repr, Inhabited

/-- The word for a vertex state in text. -/
def VertexState.text : VertexState → String
  | .active => "active"
  | .inactive => "inactive"

/-- An out edge: the target vertex and the entry that makes the edge. -/
structure OutEdge where
  target : VertexId
  entry : Entry
deriving Inhabited

/-- What a vertex program sees in one run. -/
structure VertexView where
  graph : GraphId
  vtx : VertexId
  iter : Nat
  edges : List OutEdge
  inbox : List Bytes
  lookup : Lookup

/-- What runs leave behind: the vertex state, the payloads sent and the mutations made. -/
structure VertexOut where
  state : VertexState
  sent : Array VertexMessage
  effects : Array Mutation
deriving Inhabited

namespace VertexOut

/-- Send a payload to a vertex of the same graph. -/
def send (o : VertexOut) (g : GraphId) (target : VertexId) (p : Bytes) : VertexOut :=
  { o with sent := o.sent.push ⟨g, target, p⟩ }

/-- Make a mutation. -/
def emit (o : VertexOut) (m : Mutation) : VertexOut := { o with effects := o.effects.push m }

end VertexOut

/-- The words of the gather-apply-scatter template. -/
structure Gas (α : Type) where
  gather : α → α → α
  apply : α → α → α
  scatter : α → α
  start : α
  encode : α → Bytes
  decode : Bytes → Option α

/-- One run of a gather-apply-scatter program: start from the value, or from `init` at the first
run; past iteration 0 fold the inbox and apply it, saving and going inactive when the value
stands; then scatter to every out edge. -/
def Gas.run {α : Type} [DecidableEq α] (g : Gas α)
    (init : VertexView → VertexOut → Outcome (α × VertexOut))
    (save : VertexView → α → VertexOut → Outcome VertexOut)
    (value : Option α) (v : VertexView) (o : VertexOut) : Outcome (α × VertexOut) := do
  let (x, o) ← match value with
    | some x => pure (x, o)
    | none => init v o
  let (x, o) ← if v.iter > 0 then do
      let gathered := v.inbox.foldl (fun acc p =>
        match g.decode p with
        | some m => g.gather m acc
        | none => acc) g.start
      let y := g.apply x gathered
      if x = y then do
        let o ← save v y o
        pure (y, { o with state := .inactive })
      else pure (y, { o with state := .active })
    else pure (x, { o with state := .active })
  let p := g.encode (g.scatter x)
  pure (x, v.edges.foldl (fun o e => o.send v.graph e.target p) o)

/-- Unsigned words on the wire. -/
def Gas.unsignedDecode (p : Bytes) : Option UInt64 :=
  if p.length = 8 then some (Bytes.toU64 p) else none

/-- Signed words on the wire. -/
def Gas.signedDecode (p : Bytes) : Option Int64 :=
  if p.length = 8 then some (Bytes.toI64 p) else none

/-- The distance template: least distance, one more per edge, unreached at the top word. -/
def Gas.distance : Gas UInt64 :=
  ⟨min, min, fun x => if x = UInt64.ofNat (Nat.pow 2 64 - 1) then x else x + 1,
    UInt64.ofNat (Nat.pow 2 64 - 1), Bytes.ofU64, Gas.unsignedDecode⟩

/-- The maximum template: greatest value, passed on unchanged. -/
def Gas.maximum : Gas Int64 :=
  ⟨max, max, id, Int64.ofInt (-Int.pow 2 63), Bytes.ofI64, Gas.signedDecode⟩

/-- A distance as the text of an entry: digits after trimming blanks, with an optional plus. -/
def parseDistance? (raw : Option Bytes) : Option UInt64 := do
  let s ← Bytes.utf8? (← raw)
  let n ← Text.unsigned? (Text.trim s.toList) (Nat.pow 2 64)
  pure (UInt64.ofNat n)

/-- A group filter. -/
inductive GroupFilter where
  /-- Distances over a chain's transaction graph from seeded vertices. -/
  | subgraph (chain : String) (domain : UInt32)
  /-- The greatest vertex number reaching each vertex of a graph. -/
  | maximum (name : String) (graph out : GraphId)
  /-- A one-round report per vertex that also retags its out edges. -/
  | marker (name : String) (graph out : GraphId) (add remove : String) (count : List String)
deriving Inhabited

/-- A running vertex program. -/
inductive Program where
  | distance (chain : String) (domain : UInt32) (value : Option UInt64)
  | maximum (name : String) (out : GraphId) (value : Option Int64)
  | marker (name : String) (out : GraphId) (add remove : String) (count : List String)
deriving Inhabited

namespace GroupFilter

/-- The name of a group filter. -/
def name : GroupFilter → String
  | subgraph chain _ => chain ++ "_tx_subgraph_search"
  | maximum n .. => n
  | marker n .. => n

/-- The transaction graph of a chain. -/
def txGraph (domain : UInt32) : GraphId := ChainInfo.pack domain Kind.txOutEdge 0

/-- Where a vertex's distance is kept. -/
def distanceKey (domain : UInt32) (vtx : VertexId) : Key := ⟨ChainInfo.pack domain Kind.distance 0, vtx, 0⟩

/-- Where a vertex's starting distance is read. -/
def seedKey (domain : UInt32) (vtx : VertexId) : Key :=
  ⟨ChainInfo.pack domain Kind.bfsInitialValue 0, vtx, 0⟩

/-- Whether the filter starts a program on a vertex. -/
def shouldRun (f : GroupFilter) (v : VertexView) : Outcome Bool :=
  match f with
  | subgraph chain domain =>
    if v.graph ≠ txGraph domain then pure false
    else if v.edges.isEmpty then do
      return (← v.lookup.value (distanceKey domain v.vtx)).isNone
    else pure (v.edges.any fun e => !e.entry.hasTag (doneTag (chain ++ "_tx_subgraph_search")))
  | maximum _ g _ => pure (v.graph = g)
  | marker _ g .. => pure (v.graph = g)

/-- The program the filter starts. -/
def start : GroupFilter → Program
  | subgraph chain domain => .distance chain domain none
  | maximum n _ out => .maximum n out none
  | marker n _ out add remove count => .marker n out add remove count

end GroupFilter

namespace Program

/-- The distance program's first value: the seed (unreached when missing or not a number),
lowered by a stored distance; with no stored distance, one is made from the seed. -/
def distanceInit (chain : String) (domain : UInt32) (v : VertexView) (o : VertexOut) :
    Outcome (UInt64 × VertexOut) := do
  let seed := (parseDistance? (← v.lookup.value (GroupFilter.seedKey domain v.vtx))).getD
    (UInt64.ofNat (Nat.pow 2 64 - 1))
  let resultKey := GroupFilter.distanceKey domain v.vtx
  match ← v.lookup.value resultKey with
  | none =>
    pure (seed, o.emit (.addEntry (Entry.make resultKey [chain, "TX_DISTANCE"]
      (Bytes.ofString (toString seed.toNat)))))
  | some raw =>
    match parseDistance? (some raw) with
    | some d => pure (min d seed, o)
    | none => pure (seed, o)

/-- The distance program's output: the distance, and the done tag on each out edge. -/
def distanceSave (chain : String) (domain : UInt32) (v : VertexView) (x : UInt64) (o : VertexOut) :
    Outcome VertexOut :=
  let o := o.emit (.updateValue (GroupFilter.distanceKey domain v.vtx) (Bytes.ofString (toString x.toNat)))
  pure (v.edges.foldl (fun o e => o.emit (.addTag e.entry.key (doneTag (chain ++ "_tx_subgraph_search")))) o)

/-- The maximum program's first value: the vertex number, recorded unless already there. -/
def maximumInit (name : String) (out : GraphId) (v : VertexView) (o : VertexOut) :
    Outcome (Int64 × VertexOut) := do
  let k : Key := ⟨out, v.vtx, 0⟩
  match ← v.lookup.value k with
  | none => pure (v.vtx, o.emit (.addEntry (Entry.make k [name] (Bytes.ofString (toString v.vtx.toInt)))))
  | some _ => pure (v.vtx, o)

/-- The maximum program's output: the value, in decimal. -/
def maximumSave (out : GraphId) (v : VertexView) (x : Int64) (o : VertexOut) : Outcome VertexOut :=
  pure (o.emit (.updateValue ⟨out, v.vtx, 0⟩ (Bytes.ofString (toString x.toInt))))

/-- The report the marker writes for a vertex. -/
def markerReport (v : VertexView) (state : VertexState) (count : Nat) : String :=
  s!"key={v.graph.toNat}/{v.vtx.toInt}/0 state={state.text} edges={v.edges.length} " ++
    s!"count={count} iter={v.iter}"

/-- Run a program once. -/
def run (p : Program) (v : VertexView) (o : VertexOut) : Outcome (Program × VertexOut) :=
  match p with
  | distance chain domain value => do
    let (x, o) ← Gas.distance.run (distanceInit chain domain) (distanceSave chain domain) value v o
    pure (distance chain domain (some x), o)
  | maximum name out value => do
    let (x, o) ← Gas.maximum.run (maximumInit name out) (maximumSave out) value v o
    pure (maximum name out (some x), o)
  | marker name out add remove count =>
    let n := (v.lookup.entries count).length
    let o := o.emit (.addEntry (Entry.make ⟨out, v.vtx, 0⟩ [name]
      (Bytes.ofString (markerReport v o.state n))))
    let o := v.edges.foldl (fun o e =>
      (o.emit (.removeTag e.entry.key remove)).emit (.addTag e.entry.key add)) o
    pure (p, { o with state := .inactive })

end Program

end ShardStore
