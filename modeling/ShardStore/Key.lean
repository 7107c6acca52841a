import ShardStore.Bytes.Blake
import ShardStore.Keystream
/-!
Entry keys.

A key is three words: the chain information `info` (a packed domain, kind and flag), and two
signed vertex numbers `b` and `c`. Keys are ordered lexicographically, `info` unsigned and the
vertex numbers signed; that order is the store's iteration order. The owner of a key is decided by
the hash of its vertex key `(info, b, 0)`, so every edge `(info, b, c)` lives with its source
vertex. A key whose top bit is set was drawn at random for an entry that arrived without one.
-/

namespace ShardStore

/-- A store key. -/
structure Key where
  info : UInt64
  b : Int64
  c : Int64
deriving DecidableEq, Repr, Inhabited

namespace Key

/-- The bit that marks a randomly drawn key. -/
def randomBit : UInt64 := 0x8000000000000000

/-- The key of an entry that has not been given one yet. -/
def unassigned : Key := ⟨randomBit, -1, -1⟩

/-- The key whose owner coordinates every barrier. -/
def sync : Key := ⟨0, 0, 0⟩

/-- Lexicographic comparison: `info` unsigned, then `b` and `c` signed. -/
def compare (x y : Key) : Ordering :=
  (Ord.compare x.info y.info).then ((Ord.compare x.b y.b).then (Ord.compare x.c y.c))

instance : Ord Key := ⟨Key.compare⟩

/-- Strict key order as a boolean test. -/
def lt (x y : Key) : Bool := Key.compare x y == .lt

/-- Whether the key was drawn at random. -/
def isRandom (k : Key) : Bool := k.info &&& randomBit != 0

/-- The vertex a key belongs to: the same `info` and `b`, with `c` cleared. -/
def vertex (k : Key) : Key := ⟨k.info, k.b, 0⟩

/-- Twenty-four bytes: the three words little-endian. -/
def toBytes (k : Key) : Bytes := Bytes.ofU64 k.info ++ Bytes.ofI64 k.b ++ Bytes.ofI64 k.c

/-- The first eight digest bytes of a byte string, as a word. -/
def digestWord (bs : Bytes) : UInt64 := Bytes.toU64 (Blake.hash bs)

/-- The ring position that owns the key: the digest of its vertex key. -/
def ownerHash (k : Key) : UInt64 := digestWord k.vertex.toBytes

/-- The text `info:b:c`. -/
def render (k : Key) : String := s!"{k.info.toNat}:{k.b.toInt}:{k.c.toInt}"

end Key

/-- Packing a domain, a kind and a flag into the `info` word. -/
def ChainInfo.pack (domain : UInt32) (kind flag : UInt16) : UInt64 :=
  (domain.toUInt64 <<< 32) ||| (kind.toUInt64 <<< 16) ||| flag.toUInt64

/-- The domain, kind and flag packed in an `info` word. -/
def ChainInfo.unpack (info : UInt64) : UInt32 × UInt16 × UInt16 :=
  ((info >>> 32).toUInt32, (info >>> 16).toUInt16, info.toUInt16)

/-- Chain domains by their tag, in their numbering. -/
def Chain.tags : List (String × UInt32) :=
  [("BTC", 0), ("ZEC", 1), ("ETH", 2), ("XMR", 3), ("USD", 4), ("DGB", 5), ("DOGE", 6),
    ("BCH", 7), ("POLY", 8), ("DASH", 9), ("LTC", 10)]

/-- The domain a tag names, matched exactly. -/
def Chain.ofTag? (tag : String) : Option UInt32 := (Chain.tags.find? (·.1 == tag)).map (·.2)

/-- The kind of transaction out edges. -/
def Kind.txOutEdge : UInt16 := 1

/-- The kind of computed distances. -/
def Kind.distance : UInt16 := 5

/-- The kind of starting distances. -/
def Kind.bfsInitialValue : UInt16 := 6

/-- The kind of transactions. -/
def Kind.tx : UInt16 := 15

/-- A deterministic source of random keys. The `n`-th key drawn from a seed is made of the
draws `3n`, `3n + 1` and `3n + 2` of the seed's keystream, with the random bit set in the first;
keys are drawn in order, so the source only needs the seed and how many it has drawn. -/
structure KeySource where
  seed : UInt64
  drawn : Nat
deriving Inhabited

namespace KeySource

/-- A fresh source. -/
def ofSeed (seed : UInt64) : KeySource := ⟨seed, 0⟩

/-- The `n`-th key drawn from a seed. -/
def keyAt (seed : UInt64) (n : Nat) : Key :=
  ⟨Key.randomBit ||| Keystream.draw seed (3 * n), (Keystream.draw seed (3 * n + 1)).toInt64,
    (Keystream.draw seed (3 * n + 2)).toInt64⟩

/-- Draw a fresh random key. -/
def next (g : KeySource) : Key × KeySource := (keyAt g.seed g.drawn, { g with drawn := g.drawn + 1 })

/-- Keep a key that is set; draw one for the unassigned key. -/
def assign (g : KeySource) (k : Key) : Key × KeySource :=
  if k = Key.unassigned then g.next else (k, g)

/-- The draw number of a key this source has drawn. -/
def drawNumber? (g : KeySource) (k : Key) : Option Nat :=
  (List.range g.drawn).find? fun n => keyAt g.seed n = k

end KeySource

end ShardStore
