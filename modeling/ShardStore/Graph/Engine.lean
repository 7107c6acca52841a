import ShardStore.Graph.Program
import ShardStore.Graph.Board
/-!
The graph engine: vertex programs run in rounds.

The engine collects vertices, then at setup gives each one a slot (in vertex order), hangs on it
the out edges found in the store, and asks every group filter whether to start a program there.
A round runs the programs of every slot in order, each with the slot's inbox for the round;
programs of one slot pass the vertex state along, and the round is active when any program
leaves its vertex active. The round's messages are handed back for delivery, the iteration
counter moves on, and board iterations before it are dropped.

Setting up again appends a fresh slot for every vertex; a vertex then has several slots, of
which the newest is the one found by vertex.

Errors in a lookup stop setup or a round where they happen; what was done before stays, and the
mutations made so far are returned with the error.
-/

namespace ShardStore

/-- A vertex's place in the engine. -/
structure Slot where
  vertex : Vertex
  edges : List OutEdge
  state : VertexState
  programs : List (Option Program)
deriving Inhabited

/-- What a round did. -/
structure RoundOutcome where
  /-- The iteration counter after the round. -/
  iter : Nat
  active : Bool
  outgoing : Array VertexMessage
  runs : Nat
deriving Inhabited

/-- The graph engine. -/
structure Engine where
  vertices : List Vertex
  slots : Array Slot
  index : List (Vertex × Nat)
  filters : List GroupFilter
  board : Board
  pending : Array VertexMessage
  iter : Nat
  ready : Bool
deriving Inhabited

namespace Engine

/-- An engine with nothing in it. -/
def empty : Engine := ⟨[], #[], [], [], Board.empty, #[], 0, false⟩

/-- The vertices named by a store's keys: `(g, b)` and `(g, c)` for every key `(g, b, c)` that
is not random, ascending. -/
def localVertices (s : EntryStore) : List Vertex :=
  s.keys.foldl (fun vs k =>
    if k.isRandom then vs else Vertex.insert (k.info, k.c) (Vertex.insert (k.info, k.b) vs)) []

/-- Add vertices. -/
def addVertices (e : Engine) (vs : List Vertex) : Engine :=
  { e with vertices := vs.foldl (fun acc v => Vertex.insert v acc) e.vertices }

/-- The newest slot of a vertex. -/
def slotOf? (e : Engine) (v : Vertex) : Option Nat := (e.index.find? (·.1 = v)).map (·.2)

/-- Record the newest slot of a vertex. -/
def setIndex (index : List (Vertex × Nat)) (v : Vertex) (i : Nat) : List (Vertex × Nat) :=
  (v, i) :: index.filter (·.1 ≠ v)

/-- The view of a slot's vertex at an iteration. -/
def view (s : Slot) (iter : Nat) (inbox : List Bytes) (look : Lookup) : VertexView :=
  ⟨s.vertex.1, s.vertex.2, iter, s.edges, inbox, look⟩

/-- Decide the programs of one slot, filter by filter; stop at a failing lookup. -/
def startPrograms (filters : List GroupFilter) (look : Lookup) (s : Slot) (created : Nat) :
    Slot × Nat × Option Fault :=
  filters.foldl (fun (s, n, err) f =>
    match err with
    | some _ => (s, n, err)
    | none =>
      match f.shouldRun (view s 0 [] look) with
      | .error x => (s, n, some x)
      | .ok true => ({ s with programs := s.programs ++ [some f.start] }, n + 1, none)
      | .ok false => ({ s with programs := s.programs ++ [none] }, n, none)) (s, created, none)

/-- Set up: a slot for every vertex, their out edges, and the programs the filters start. -/
def setup (e : Engine) (store : EntryStore) (filters : List GroupFilter) (look : Lookup) :
    Engine × Outcome Nat :=
  let (slots, index) := e.vertices.foldl (fun (slots, index) v =>
    (slots.push ⟨v, [], .active, []⟩, setIndex index v slots.size)) (e.slots, e.index)
  let slots := store.entries.foldl (fun slots d =>
    if d.key.isRandom then slots
    else
      match (index.find? (·.1 = (d.key.info, d.key.b))).map (·.2) with
      | some i => slots.modify i fun s => { s with edges := s.edges ++ [⟨d.key.c, d⟩] }
      | none => slots) slots
  let rec go (i : Nat) (slots : Array Slot) (created : Nat) (fuel : Nat) :
      Array Slot × Nat × Option Fault :=
    match fuel with
    | 0 => (slots, created, none)
    | fuel + 1 =>
      match slots[i]? with
      | none => (slots, created, none)
      | some s =>
        let (s, created, err) := startPrograms filters look s created
        let slots := slots.set! i s
        match err with
        | some x => (slots, created, some x)
        | none => go (i + 1) slots created fuel
  let (slots, created, err) := go 0 slots 0 slots.size
  let e := { e with filters, slots, index }
  match err with
  | some x => (e, .error x)
  | none => ({ e with ready := true }, .ok created)

/-- Run the programs of one slot in order with the slot's inbox; the slot, the shared output,
the runs, whether a program left the vertex active, and the error that stopped it. -/
def runSlot (s : Slot) (iter : Nat) (inbox : List Bytes) (look : Lookup) (o : VertexOut) :
    Slot × VertexOut × Nat × Bool × Option Fault :=
  let rec go : List (Option Program) → List (Option Program) → Slot → VertexOut → Nat → Bool →
      Slot × VertexOut × Nat × Bool × Option Fault
    | [], done, s, o, runs, act => ({ s with programs := done.reverse }, o, runs, act, none)
    | none :: rest, done, s, o, runs, act => go rest (none :: done) s o runs act
    | some p :: rest, done, s, o, runs, act =>
      match p.run (view s iter inbox look) { o with state := s.state } with
      | .error x => ({ s with programs := done.reverse ++ some p :: rest }, o, runs, act, some x)
      | .ok (p, o) => go rest (some p :: done) { s with state := o.state } o (runs + 1)
          (act || o.state == .active)
  go s.programs [] s o 0 false

/-- Run one round: the engine after it, the mutations made, and what the round did. The
messages sent while setting up go out with the first round. -/
def round (e : Engine) (look : Lookup) : Engine × Array Mutation × Outcome RoundOutcome :=
  let iter := e.iter
  let rec go (i : Nat) (slots : Array Slot) (o : VertexOut) (runs : Nat) (act : Bool) (fuel : Nat) :
      Array Slot × VertexOut × Nat × Bool × Option Fault :=
    match fuel with
    | 0 => (slots, o, runs, act, none)
    | fuel + 1 =>
      match slots[i]? with
      | none => (slots, o, runs, act, none)
      | some s =>
        let (s, o, r, a, err) := runSlot s iter (e.board.inbox iter s.vertex) look o
        let slots := slots.set! i s
        match err with
        | some x => (slots, o, runs + r, act || a, some x)
        | none => go (i + 1) slots o (runs + r) (act || a) fuel
  let (slots, o, runs, act, err) := go 0 e.slots ⟨.active, e.pending, #[]⟩ 0 false e.slots.size
  match err with
  | some x => ({ e with slots, pending := #[] }, o.effects, .error x)
  | none =>
    ({ e with slots, pending := #[], iter := iter + 1, board := e.board.discardBefore (iter + 1) },
      o.effects, .ok ⟨iter + 1, act, o.sent, runs⟩)

/-- Post messages for an iteration. -/
def deliver (e : Engine) (iter : Nat) (ms : List VertexMessage) : Engine :=
  { e with board := e.board.extend iter ms }

/-- Drop the slots, vertices, filters and messages, and start counting again. -/
def teardown (_ : Engine) : Engine := empty

/-- The out degree of a vertex, by its newest slot. -/
def outDegree? (e : Engine) (v : Vertex) : Option Nat := do
  let i ← e.slotOf? v
  let s ← e.slots[i]?
  pure s.edges.length

/-- The state of a vertex, by its newest slot. -/
def state? (e : Engine) (v : Vertex) : Option VertexState := do
  let i ← e.slotOf? v
  let s ← e.slots[i]?
  pure s.state

end Engine

end ShardStore
