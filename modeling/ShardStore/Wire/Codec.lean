import ShardStore.Fault
import ShardStore.Key
import ShardStore.Bytes.Utf8
/-!
The field codec of the wire format.

Numbers are little-endian; a length is a 64-bit word; bytes and strings are a length and the
bytes; a key is its 24 bytes; an address is its serial. Decoders read from the front of a byte
string and fail with the first `DecodeError`. A length prefix is checked before anything is
read: the count times the least size of one element (at least one byte) must fit in what is
left, the product saturating at `2 ^ 64 - 1`.
-/

namespace ShardStore

/-- Decoding: read from the front of a byte string. -/
abbrev Decoder (α : Type) := StateT Bytes (Except DecodeError) α

namespace Decoder

/-- Fail with a decode error. -/
def fail {α : Type} (e : DecodeError) : Decoder α := fun _ => .error e

/-- Bytes left. -/
def remaining : Decoder Nat := fun s => .ok (s.length, s)

/-- The next `n` bytes. -/
def take (n : Nat) : Decoder Bytes := fun s =>
  if n ≤ s.length then .ok (s.take n, s.drop n) else .error (.truncated n s.length)

/-- One byte. -/
def u8 : Decoder UInt8 := do
  let bs ← take 1
  pure (bs.headD 0)

/-- A boolean: the byte 0 or 1. -/
def bool : Decoder Bool := do
  let b ← u8
  if b == 0 then pure false
  else if b == 1 then pure true
  else fail (.invalid s!"bool byte {b.toNat}")

/-- A 16-bit word. -/
def u16 : Decoder UInt16 := do return Bytes.toU16 (← take 2)

/-- A 32-bit word. -/
def u32 : Decoder UInt32 := do return Bytes.toU32 (← take 4)

/-- A 64-bit word. -/
def u64 : Decoder UInt64 := do return Bytes.toU64 (← take 8)

/-- A signed 64-bit word. -/
def i64 : Decoder Int64 := do return Bytes.toI64 (← take 8)

/-- The largest word, where a needed size saturates. -/
def wordMax : Nat := Nat.pow 2 64 - 1

/-- A length prefix for elements of at least `minSize` bytes; the elements must fit. -/
def len (minSize : Nat) : Decoder Nat := do
  let n := (← u64).toNat
  let needed := min (n * max minSize 1) wordMax
  let left ← remaining
  if needed > left then fail (.truncated needed left) else pure n

/-- Length-prefixed bytes. -/
def bytes : Decoder Bytes := do
  let n ← len 1
  take n

/-- A length-prefixed UTF-8 string; `field` names it in the error. -/
def string (field : String) : Decoder String := do
  let bs ← bytes
  match Bytes.utf8? bs with
  | some s => pure s
  | none => fail (.invalidUtf8 field)

/-- A key. -/
def key : Decoder Key := do
  let info ← u64
  let b ← i64
  let c ← i64
  pure ⟨info, b, c⟩

/-- An address, from its serial. -/
def address : Decoder Address := do return Address.ofSerial (← u64)

/-- Nothing may be left. -/
def finish : Decoder Unit := do
  let n ← remaining
  if n = 0 then pure () else fail (.trailingBytes n)

/-- `n` elements in order. -/
def many {α : Type} (d : Decoder α) : Nat → Decoder (List α)
  | 0 => pure []
  | n + 1 => do
    let x ← d
    let xs ← many d n
    pure (x :: xs)

/-- Run a decoder on a whole byte string; leftover bytes are returned, not refused. -/
def run {α : Type} (d : Decoder α) (bs : Bytes) : Except DecodeError (α × Bytes) := d bs

/-- Run a decoder that must consume everything. -/
def runAll {α : Type} (d : Decoder α) (bs : Bytes) : Except DecodeError α := do
  let (x, _) ← (do let x ← d; finish; pure x : Decoder α) bs
  pure x

end Decoder

namespace Encode

/-- A boolean byte. -/
def bool (b : Bool) : Bytes := [if b then 1 else 0]

/-- A length. -/
def len (n : Nat) : Bytes := Bytes.ofU64 (UInt64.ofNat n)

/-- Length-prefixed bytes. -/
def bytes (bs : Bytes) : Bytes := len bs.length ++ bs

/-- A length-prefixed UTF-8 string. -/
def string (s : String) : Bytes := bytes (Bytes.ofString s)

/-- A key. -/
def key (k : Key) : Bytes := k.toBytes

/-- An address. -/
def address (a : Address) : Bytes := Bytes.ofU64 a.serial

end Encode

end ShardStore
