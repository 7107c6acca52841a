import ShardStore.Fault
import ShardStore.Key
/-!
The consistent-hash ring.

Each agent stands on the ring at one position per virtual node: the position's word is the
packed serial and virtual-node number, and its place is the hash of that word. Positions are
sorted by place, then by word, and repeated words are kept once. A hash is owned by the first
position whose place is at least the hash, wrapping round to the first position. The position
hash is a parameter of `Ring.build`; agents use `Ring.placeOf`, the digest of the word's eight
little-endian bytes.
-/

namespace ShardStore

/-- A point on the ring. -/
structure Ring.Position where
  place : UInt64
  packed : UInt64
  agent : Address
deriving DecidableEq, Repr, Inhabited

/-- A ring: its sorted positions and the virtual nodes each agent gets. -/
structure Ring where
  positions : Array Ring.Position
  vnodes : UInt16
deriving Inhabited

namespace Ring

/-- The standard position hash: the first digest word of the packed position. -/
def placeOf (packed : UInt64) : UInt64 := Key.digestWord (Bytes.ofU64 packed)

/-- Position order: by place, then by packed word. -/
def Position.le (p q : Position) : Bool :=
  p.place < q.place || (p.place == q.place && p.packed ≤ q.packed)

/-- An empty ring; zero virtual nodes count as one. -/
def empty (vnodes : UInt16) : Ring := ⟨#[], max vnodes 1⟩

/-- Keep a sorted position unless its packed word equals the one kept last. -/
def keepNew (kept : Array Position) (p : Position) : Array Position :=
  match kept.back? with
  | some q => if q.packed == p.packed then kept else kept.push p
  | none => kept.push p

/-- Drop each position whose packed word equals its predecessor's. -/
def dedup (ps : Array Position) : Array Position := ps.foldl keepNew #[]

/-- The positions of the agents, `vnodes` each, before sorting. -/
def rawPositions (hash : UInt64 → UInt64) (vnodes : UInt16) (agents : List Address) :
    List Position :=
  agents.flatMap fun a =>
    (List.range vnodes.toNat).map fun v =>
      let packed := Address.packVirtual a.serial v.toUInt16
      ⟨hash packed, packed, a⟩

/-- Rebuild the ring for a list of agents with a position hash. -/
def build (r : Ring) (agents : List Address) (hash : UInt64 → UInt64 := placeOf) : Ring :=
  let sorted := (rawPositions hash r.vnodes agents).mergeSort Position.le
  { r with positions := dedup sorted.toArray }

/-- The number of positions. -/
def size (r : Ring) : Nat := r.positions.size

/-- The first index in `[lo, hi)` whose place is at least `h`, or `hi`. -/
def firstAtLeast (ps : Array Position) (h : UInt64) (lo hi : Nat) : Nat :=
  if lo < hi then
    let mid := (lo + hi) / 2
    if (ps[mid]?.map (·.place)).getD 0 < h then firstAtLeast ps h (mid + 1) hi
    else firstAtLeast ps h lo mid
  else lo
termination_by hi - lo

/-- The agent owning a hash: the first position at or past it, wrapping to the first. -/
def lookup (r : Ring) (h : UInt64) : Outcome Address :=
  let i := firstAtLeast r.positions h 0 r.positions.size
  match r.positions[i]?, r.positions[0]? with
  | some p, _ => .ok p.agent
  | none, some p => .ok p.agent
  | none, none => .error .emptyRing

/-- The agent owning a key. -/
def owner (r : Ring) (k : Key) : Outcome Address := r.lookup k.ownerHash

end Ring

end ShardStore
