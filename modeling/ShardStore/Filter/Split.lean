import ShardStore.Filter.Basic
import ShardStore.Json.Read
import ShardStore.Json.Write
/-!
Splitting a block into its transactions.

A block entry's value is a JSON document with an array `tx` of objects, each with a string
`txid`. Every transaction becomes an entry of its chain: the key has kind `tx` and as its `b`
the first fifteen characters of the id read as a signed hexadecimal number, the tags are the
chain, `tx` and `txid=<id>`, and the value is `\x7b"tx": <transaction>\x7d` written in the
indented layout. One transaction that does not fit refuses the whole block.
-/

namespace ShardStore

namespace Split

/-- How many leading characters of a transaction id make its key. -/
def idDigits : Nat := 15

/-- Hexadecimal digits with an optional sign, as a signed 64-bit word. -/
def signedHex? (s : String) : Option Int64 :=
  let (neg, ds) := match s.toList with
    | '-' :: ds => (true, ds)
    | '+' :: ds => (false, ds)
    | ds => (false, ds)
  if ds.isEmpty then none
  else do
    let n ← ds.foldlM (fun acc c => do return acc * 16 + (← Bytes.digitValue? c)) 0
    let i : Int := if neg then -(n : Int) else n
    if -Int.pow 2 63 ≤ i ∧ i < Int.pow 2 63 then some (Int64.ofInt i) else none

/-- The first `n` bytes of a string, when they end on a character boundary. -/
def bytePrefix? (s : String) (n : Nat) : Option String :=
  if n ≤ s.utf8ByteSize then
    Bytes.utf8? ((Bytes.ofString s).take n)
  else none

/-- The key of a transaction of a chain. -/
def txKey? (domain : UInt32) (txid : String) : Option Key := do
  let b ← signedHex? (← bytePrefix? txid idDigits)
  pure ⟨ChainInfo.pack domain Kind.tx 0, b, 0⟩

/-- The transactions of a block: each one's key, id tag and value. -/
def transactions (domain : UInt32) (raw : Bytes) : Option (List (Key × String × Bytes)) := do
  let block ← (Json.parseBytes raw).toOption
  let txs ← match block.get? "tx" with
    | some (.arr txs) => some txs
    | _ => none
  txs.mapM fun tx => do
    if !tx.isObj then none
    let txid ← match tx.get? "txid" with
      | some (.str id) => some id
      | _ => none
    let k ← txKey? domain txid
    pure (k, "txid=" ++ txid, Bytes.ofString (Json.obj [("tx", tx)]).pretty)

end Split

end ShardStore
