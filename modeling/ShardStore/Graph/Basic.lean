import ShardStore.Bytes.Word
/-!
Graph identities and vertex messages.

A graph is named by a key's `info` word and a vertex by a key's `b` word, so the vertex `(g, v)`
is stored under the key `(g, v, 0)` and its out edges are the keys `(g, v, c)`. Vertex programs
talk by messages addressed to a vertex and carrying bytes.
-/

namespace ShardStore

/-- A graph: the `info` word of its keys. -/
abbrev GraphId := UInt64

/-- A vertex within a graph. -/
abbrev VertexId := Int64

/-- A message to a vertex. -/
structure VertexMessage where
  graph : GraphId
  vtx : VertexId
  payload : Bytes
deriving DecidableEq, Repr, Inhabited

/-- A vertex: its graph and its number. -/
abbrev Vertex := GraphId × VertexId

/-- Vertex order: by graph, then by number. -/
def Vertex.compare (x y : Vertex) : Ordering :=
  (Ord.compare x.1 y.1).then (Ord.compare x.2 y.2)

/-- Strict vertex order. -/
def Vertex.lt (x y : Vertex) : Bool := Vertex.compare x y == .lt

/-- Insert a vertex into an ascending list, once. -/
def Vertex.insert (x : Vertex) : List Vertex → List Vertex
  | [] => [x]
  | y :: ys =>
    match Vertex.compare x y with
    | .lt => x :: y :: ys
    | .eq => y :: ys
    | .gt => y :: Vertex.insert x ys

end ShardStore
