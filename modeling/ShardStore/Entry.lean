import ShardStore.Wire.Codec
/-!
Entries: a key, a set of tags and a value.

Tags form a set, kept as a strictly ascending list of strings, so two entries with the same tags
have the same list. Merging an entry into another under the same key either changes nothing
(same tags and value, and neither asks for a forced merge) or joins the values with a line
break and takes the union of the tags plus `MERGED`. The binary form is the key, the value with
its length, and the tag count followed by each tag with its length; `Entry.size` is its length,
and the store charges exactly that much for an entry.
-/

namespace ShardStore

/-- A set of tags as a strictly ascending list. -/
structure TagSet where
  toList : List String
deriving DecidableEq, Repr, Inhabited

namespace TagSet

/-- No tags. -/
def empty : TagSet := ⟨[]⟩

/-- Insert into an ascending list, keeping it strictly ascending. -/
def insertSorted (t : String) : List String → List String
  | [] => [t]
  | u :: us => if t < u then t :: u :: us else if t = u then u :: us else u :: insertSorted t us

/-- Whether a tag is in the set. -/
def contains (s : TagSet) (t : String) : Bool := s.toList.contains t

/-- Add a tag. -/
def insert (s : TagSet) (t : String) : TagSet := ⟨insertSorted t s.toList⟩

/-- Remove a tag. -/
def erase (s : TagSet) (t : String) : TagSet := ⟨s.toList.filter (· ≠ t)⟩

/-- The set of the strings in a list. -/
def ofList (ts : List String) : TagSet := ts.foldl insert empty

/-- The union of two sets. -/
def union (s u : TagSet) : TagSet := u.toList.foldl insert s

/-- The number of tags. -/
def size (s : TagSet) : Nat := s.toList.length

end TagSet

/-- What decoding makes of the two kinds of field that have more than one written form: an
address word, of which only the low 48 bits name the address, and a list of tags, which may
repeat a tag or give the tags out of order. -/
structure Normalizer where
  address : UInt64 → Decoder Address
  tags : List String → Decoder TagSet

namespace Normalizer

/-- How the program reads them: an address from the low bits of its word, and a tag set from
its tags in any order, repeats dropped. -/
def lenient : Normalizer := ⟨fun v => pure (Address.ofSerial v), fun ts => pure (TagSet.ofList ts)⟩

/-- An address word, read and normalized. -/
def readAddress (N : Normalizer) : Decoder Address := do N.address (← Decoder.u64)

end Normalizer

/-- A stored entry. -/
structure Entry where
  key : Key
  tags : TagSet
  value : Bytes
deriving DecidableEq, Repr, Inhabited

/-- What merging did. -/
inductive MergeOutcome where
  | unchanged
  | merged
deriving DecidableEq, Repr

namespace Entry

/-- The tag a merge adds. -/
def mergedTag : String := "MERGED"

/-- The tag that makes every merge join, even of equal entries. -/
def forceMergeTag : String := "MERGE_STRATEGY=FORCE_MERGE"

/-- An entry from a key, tags in any order with repeats, and a value. -/
def make (key : Key) (tags : List String) (value : Bytes) : Entry := ⟨key, TagSet.ofList tags, value⟩

/-- Whether the entry has a tag. -/
def hasTag (e : Entry) (t : String) : Bool := e.tags.contains t

/-- Add a tag; the flag says whether it was new. -/
def addTag (e : Entry) (t : String) : Entry × Bool :=
  (⟨e.key, e.tags.insert t, e.value⟩, !e.hasTag t)

/-- Remove a tag; the flag says whether it was there. -/
def removeTag (e : Entry) (t : String) : Entry × Bool :=
  (⟨e.key, e.tags.erase t, e.value⟩, e.hasTag t)

/-- Append a line and a line break to the value. -/
def addToValue (e : Entry) (line : String) : Entry :=
  { e with value := e.value ++ Bytes.ofString line ++ [10] }

/-- Whether a merge of these two is forced. -/
def forced (e other : Entry) : Bool := e.hasTag forceMergeTag || other.hasTag forceMergeTag

/-- Merge `other` into `e`; the key of `other` is ignored. -/
def merge (e other : Entry) : Entry × MergeOutcome :=
  if !e.forced other && e.tags == other.tags && e.value == other.value then (e, .unchanged)
  else
    (⟨e.key, (e.tags.union other.tags).insert mergedTag, e.value ++ [10] ++ other.value⟩, .merged)

/-- The length of the binary form. -/
def size (e : Entry) : Nat :=
  24 + 8 + e.value.length + 8 + e.tags.toList.foldl (fun n t => n + 8 + t.utf8ByteSize) 0

/-- The binary form. -/
def encode (e : Entry) : Bytes :=
  Encode.key e.key ++ Encode.bytes e.value ++ Encode.len e.tags.size ++
    e.tags.toList.flatMap Encode.string

/-- Read an entry, its tags normalized by `N`; the program's reading collapses repeated tags
into the set. -/
def decoder (N : Normalizer := .lenient) : Decoder Entry := do
  let key ← Decoder.key
  let value ← Decoder.bytes
  let count ← Decoder.len 8
  let tags ← Decoder.many (Decoder.string "tag") count
  let tags ← N.tags tags
  pure ⟨key, tags, value⟩

/-- Decode exactly one entry from a byte string. -/
def decode (bs : Bytes) (N : Normalizer := .lenient) : Except DecodeError Entry :=
  Decoder.runAll (decoder N) bs

/-- The value as text, with replacement characters where it is not UTF-8. -/
def valueText (e : Entry) : String := Bytes.lossy e.value

/-- The printed form: key, tags one a line, value. -/
def render (e : Entry) : String :=
  "KEY:\n" ++ (if e.key.isRandom then "(random)" else "") ++ e.key.render ++ "\nTAGS:\n" ++
    String.join (e.tags.toList.map (· ++ "\n")) ++ "VALUE:\n" ++ e.valueText

end Entry

end ShardStore
