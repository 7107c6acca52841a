import ShardStore.Graph.Basic
/-!
The message board of the graph stage.

Messages are posted for an iteration and a vertex, and a vertex reads, at an iteration, the
payloads posted for it there in posting order. Iterations are kept in ascending order, so
dropping everything before an iteration keeps a suffix.
-/

namespace ShardStore

/-- Payloads by iteration and vertex. -/
structure Board where
  byIter : List (Nat × List (Vertex × List Bytes))
deriving Inhabited

namespace Board

/-- An empty board. -/
def empty : Board := ⟨[]⟩

/-- Append a payload to a vertex's inbox. -/
def addTo (v : Vertex) (p : Bytes) : List (Vertex × List Bytes) → List (Vertex × List Bytes)
  | [] => [(v, [p])]
  | (w, ps) :: rest => if w = v then (w, ps ++ [p]) :: rest else (w, ps) :: addTo v p rest

/-- Post a message for an iteration. -/
def postAt (i : Nat) (m : VertexMessage) : List (Nat × List (Vertex × List Bytes)) →
    List (Nat × List (Vertex × List Bytes))
  | [] => [(i, [((m.graph, m.vtx), [m.payload])])]
  | (j, inboxes) :: rest =>
    if i < j then (i, [((m.graph, m.vtx), [m.payload])]) :: (j, inboxes) :: rest
    else if i = j then (j, addTo (m.graph, m.vtx) m.payload inboxes) :: rest
    else (j, inboxes) :: postAt i m rest

/-- Post a message for an iteration. -/
def post (b : Board) (i : Nat) (m : VertexMessage) : Board := ⟨postAt i m b.byIter⟩

/-- Post messages for an iteration, in order. -/
def extend (b : Board) (i : Nat) (ms : List VertexMessage) : Board := ms.foldl (·.post i ·) b

/-- The payloads for a vertex at an iteration, in posting order. -/
def inbox (b : Board) (i : Nat) (v : Vertex) : List Bytes :=
  match b.byIter.find? (·.1 = i) with
  | some (_, inboxes) => ((inboxes.find? (·.1 = v)).map (·.2)).getD []
  | none => []

/-- Drop the iterations before `i`. -/
def discardBefore (b : Board) (i : Nat) : Board := ⟨b.byIter.filter (·.1 ≥ i)⟩

/-- The number of payloads held. -/
def size (b : Board) : Nat := b.byIter.foldl (fun n (_, ins) => ins.foldl (fun n (_, ps) => n + ps.length) n) 0

end Board

end ShardStore
