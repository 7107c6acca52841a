import ShardStore.Console.Form
import ShardStore.Ring
import ShardStore.Store.Files
import ShardStore.Config.Budget
/-!
Requests about single values: keys, addresses, the ring, entries, frames and the field codec.

Each request is answered from its own members only. A request whose members do not have the
expected shape is refused with a `BadInput` object; faults and decode errors met while answering
are reported with their own error objects.
-/

namespace ShardStore

namespace Console

/-! ### Keys and addresses -/

/-- The packed fields of an `info` word. -/
def unpackedJson (info : UInt64) : Json :=
  let (d, k, f) := ChainInfo.unpack info
  .arr [.nat d.toNat, .nat k.toNat, .nat f.toNat]

/-- Everything about one key. -/
def keyInfo (req : Json) : Answer Json := do
  let k ← key (← field req "key")
  return Json.record [("is_random", .bool k.isRandom), ("vertex_key", keyJson k.vertex),
    ("bytes", hexJson k.toBytes), ("owner_hash", .nat k.ownerHash.toNat),
    ("display", .str k.render), ("unpacked", unpackedJson k.info)]

/-- Pack a domain, a kind and a flag. -/
def pack (req : Json) : Answer Json := do
  let get (k : String) (bits : Nat) : Answer Nat := do
    let i ← int (← field req k)
    if 0 ≤ i ∧ i < Int.pow 2 bits then pure i.toNat else refuse "field out of range"
  let d ← get "domain" 32
  let k ← get "kind" 16
  let f ← get "flag" 16
  let info := ChainInfo.pack (UInt32.ofNat d) (UInt16.ofNat k) (UInt16.ofNat f)
  return Json.record [("chain_info", .nat info.toNat), ("unpacked", unpackedJson info)]

/-- The domain of a chain tag. -/
def chainTag (req : Json) : Answer Json := do
  let t ← str (← field req "tag")
  return Json.record [("domain", ((Chain.ofTag? t).map fun d => Json.nat d.toNat).getD .null)]

/-- Sort keys. -/
def keySort (req : Json) : Answer Json := do
  let ks ← (← arr (← field req "keys")).mapM key
  let sorted := ks.toArray.qsort Key.lt
  return Json.record [("sorted", .arr (sorted.toList.map keyJson))]

/-- Everything about one address. -/
def addressInfo (a : Address) : List (String × Json) :=
  [("display", .str a.render), ("ip", .str a.ipText), ("slot", .nat a.slot.toNat),
    ("port", .nat a.tcpPort.toNat), ("serial", .nat a.serial.toNat), ("socket", .str a.socketText),
    ("responder", addressJson a.responder), ("map_service", addressJson a.mapService)]

/-- Parse an address, or read one from a serial, or from an IP and a slot. -/
def addressOp (req : Json) : Answer Json := do
  if let some s := opt req "parse" then
    let a ← lift (Address.parse (← str s))
    return Json.record (addressInfo a)
  if let some s := opt req "serial" then
    let serial ← u64 s
    let vid ← u16 (← field req "vid")
    let a := Address.ofSerial serial
    return Json.record (addressInfo a ++
      [("packed", .nat (Address.packVirtual serial vid).toNat),
        ("unpacked", .nat (Address.unpackVirtual serial).toNat)])
  if let some s := opt req "into_string" then
    return .str (← address s).render
  let ipText ← str (← field req "ip")
  let ip ← match Address.ipv4? ipText.toList with
    | some ip => pure ip
    | none => refuse s!"bad ip {ipText}"
  let a : Address := ⟨ip, ← u16 (← field req "slot")⟩
  let by_ ← u16 (← field req "offset")
  return Json.record (addressInfo a ++ [("offset", addressJson (a.offset by_))])

/-! ### The ring -/

/-- Build a ring through a series of agent lists and look up hashes and keys. -/
def ringOp (req : Json) : Answer Json := do
  let r ← if (← boolD req "default" false) then pure (Ring.empty Address.startingVirtualNodes)
    else do pure (Ring.empty (UInt16.ofNat (← natBelow 16 (← field req "vagents"))))
  let updates : List (List Address) ← match opt req "updates" with
    | some us => do (← arr us).mapM addresses
    | none => do
      let agents ← addresses (← field req "agents")
      pure [agents]
  let (r, sizes) := updates.foldl (fun (r, sizes) agents =>
    let r := r.build agents
    (r, sizes ++ [Json.nat r.size])) (r, [])
  let hashes ← (← listD req "hashes").mapM u64
  let keys ← (← listD req "keys").mapM key
  return Json.record [("sizes", .arr sizes), ("empty", .bool (r.size == 0)),
    ("hashes", .arr (hashes.map fun h => outcomeJson addressJson (r.lookup h))),
    ("keys", .arr (keys.map fun k => outcomeJson addressJson (r.owner k)))]

/-! ### Entries -/

/-- Apply one edit to an entry, with its result. -/
def entryEdit (e : Entry) (edit : Json) : Answer (Entry × Json) := do
  let arg ← field edit "arg"
  match ← str (← field edit "op") with
  | "add_tag" => do
    let (e, b) := e.addTag (← str arg)
    pure (e, .bool b)
  | "remove_tag" => do
    let (e, b) := e.removeTag (← str arg)
    pure (e, .bool b)
  | "has_tag" => return (e, .bool (e.hasTag (← str arg)))
  | "set_value" => return ({ e with value := ← bytes arg }, .null)
  | "add_to_value" => return (e.addToValue (← str arg), .null)
  | "set_key" => return ({ e with key := ← key arg }, .null)
  | other => refuse s!"unknown edit {other}"

/-- The name of a merge outcome. -/
def outcomeName : MergeOutcome → String
  | .unchanged => "Unchanged"
  | .merged => "Merged"

/-- Merge entries into one, edit it, and show it every way. -/
def entryOp (req : Json) : Answer Json := do
  let e ← entry (← field req "entry") (← boolD req "unkeyed" false)
  let merges ← (← listD req "merge").mapM fun m => entry m
  let (e, outcomes) := merges.foldl (fun (e, os) m =>
    let (e, o) := e.merge m
    (e, os ++ [Json.str (outcomeName o)])) (e, [])
  let (e, edits) ← (← listD req "edits").foldlM (fun (e, rs) ed => do
    let (e, r) ← entryEdit e ed
    pure (e, rs ++ [r])) (e, [])
  return Json.record [("outcomes", .arr outcomes), ("edits", .arr edits), ("entry", entryJson e),
    ("is_random_key", .bool e.key.isRandom), ("encoded_len", .nat e.size),
    ("bytes", hexJson e.encode), ("display", .str e.render), ("value_str", .str e.valueText)]

/-- Decode one entry. -/
def entryDecode (req : Json) : Answer Json := do
  let e ← liftDecode (Entry.decode (← hex (← field req "hex")))
  return Json.record [("entry", entryJson e), ("reencoded", hexJson e.encode)]

/-- Write entries in the export form. -/
def entriesSerialize (req : Json) : Answer Json := do
  let es ← (← arr (← field req "entries")).mapM fun e => entry e
  return Json.record [("hex", hexJson (Files.serialize es))]

/-- Read entries in the export form. -/
def entriesDeserialize (req : Json) : Answer Json := do
  let es ← liftDecode (Files.deserialize (← hex (← field req "hex")))
  return Json.record [("entries", .arr (es.map entryJson))]

/-- Read a text file of entries. -/
def parseDbFile (req : Json) : Answer Json := do
  let es ← lift (Files.parseText "<file>" (← bytesD req "text"))
  let kj (k : Key) : Json := if k = Key.unassigned then .null else keyJson k
  return Json.record [("entries", .arr (es.map (entryJsonWith kj)))]

/-! ### Frames -/

/-- Decode a message frame. -/
def msgDecode (req : Json) : Answer Json := do
  let frame ← hex (← field req "hex")
  let m ← liftDecode (Message.decode frame)
  return Json.record [("msg", messageJson m), ("type_byte", .nat m.typeByte.toNat),
    ("reencoded", hexJson m.encode)]

/-- Encode a message, and check that it decodes back. -/
def msgEncode (req : Json) : Answer Json := do
  let m ← message (← field req "msg")
  let frame := m.encode
  return Json.record [("hex", hexJson frame), ("roundtrip", .bool (match Message.decode frame with
      | .ok m2 => decide (m2 = m)
      | .error _ => false))]

/-- Decode a reply frame. -/
def replyDecode (req : Json) : Answer Json := do
  let r ← liftDecode (Reply.decode (← hex (← field req "hex")))
  return Json.record [("reply", replyJson r), ("reencoded", hexJson r.encode),
    ("into_result", outcomeJson (fun _ => .str "ok") r.intoResult)]

/-- Encode a reply. -/
def replyEncode (req : Json) : Answer Json := do
  return Json.record [("hex", hexJson (← reply (← field req "reply")).encode)]

/-! ### The field codec -/

/-- A number after a prefix, as in `len8` or `take3`. -/
def suffixNumber? (pre s : String) : Option Nat :=
  if s.startsWith pre then (s.drop pre.length).toString.toNat? else none

/-- One named read, as a decoder of its JSON value. -/
def readStep (name : String) (start : Nat) : Answer (Decoder Json) :=
  match name with
  | "u8" => pure do return .nat (← Decoder.u8).toNat
  | "bool" => pure do return .bool (← Decoder.bool)
  | "u16" => pure do return .nat (← Decoder.u16).toNat
  | "u32" => pure do return .nat (← Decoder.u32).toNat
  | "u64" => pure do return .nat (← Decoder.u64).toNat
  | "i64" => pure do return .int (← Decoder.i64).toInt
  | "bytes" => pure do return hexJson (← Decoder.bytes)
  | "string" => pure do return .str (← Decoder.string "string")
  | "key" => pure do return keyJson (← Decoder.key)
  | "address" => pure do return addressJson (← Decoder.address)
  | "remaining" => pure do return .nat (← Decoder.remaining)
  | "position" => pure do return .nat (start - (← Decoder.remaining))
  | "is_empty" => pure do return .bool ((← Decoder.remaining) == 0)
  | "finish" => pure do
    Decoder.finish
    return .str "finished"
  | other =>
    match suffixNumber? "len" other, suffixNumber? "take" other with
    | some n, _ => pure do return .nat (← Decoder.len n)
    | none, some n => pure do return hexJson (← Decoder.take n)
    | none, none => refuse s!"unknown read {other}"

/-- Run named reads in order over one byte string, stopping at the first error. -/
def codecRead (req : Json) : Answer Json := do
  let bs ← hex (← field req "hex")
  let reads ← strs (← field req "reads")
  let steps ← reads.mapM fun r => readStep r bs.length
  let rec go : List (Decoder Json) → Bytes → List Json
    | [], _ => []
    | d :: ds, rest =>
      match d rest with
      | .ok (v, rest) => v :: go ds rest
      | .error e => [decodeJson e]
  return Json.record [("values", .arr (go steps bs))]

/-- An integer argument of a write, in the range of its kind. -/
def writeInt (arg : Json) (lo hi : Int) (kind : String) : Answer Int :=
  match arg.int? with
  | none => refuse "integer arg"
  | some i => if lo ≤ i ∧ i < hi then pure i else refuse s!"{i} out of range for {kind}"

/-- One named write. -/
def writeStep (w : Json) : Answer Bytes := do
  let arg := (w.get? "arg").getD .null
  match ← str (← field w "kind") with
  | "u8" => return [UInt8.ofNat (← writeInt arg 0 (Int.pow 2 8) "u8").toNat]
  | "u16" => return Bytes.ofU16 (UInt16.ofNat (← writeInt arg 0 (Int.pow 2 16) "u16").toNat)
  | "u32" => return Bytes.ofU32 (UInt32.ofNat (← writeInt arg 0 (Int.pow 2 32) "u32").toNat)
  | "u64" => return Bytes.ofU64 (UInt64.ofNat (← writeInt arg 0 (Int.pow 2 64) "u64").toNat)
  | "i64" => return Bytes.ofI64 (Int64.ofInt (← writeInt arg (-Int.pow 2 63) (Int.pow 2 63) "i64"))
  | "bool" => return Encode.bool (← bool arg)
  | "len" => return Encode.len (← writeInt arg 0 (Int.pow 2 64) "u64").toNat
  | "bytes" => return Encode.bytes (← bytes arg)
  | "str" => return Encode.string (← str arg)
  | "key" => return Encode.key (← key arg)
  | "address" => return Encode.address (← address arg)
  | other => refuse s!"unknown write {other}"

/-- Run named writes in order. -/
def codecWrite (req : Json) : Answer Json := do
  let ws ← arr (← field req "writes")
  let parts ← ws.mapM writeStep
  return Json.record [("hex", hexJson parts.flatten)]

/-! ### Budgets -/

/-- A float argument. -/
def float (j : Json) : Answer Float :=
  match j with
  | .float x => pure x
  | .nat n => pure (Float.ofNat n)
  | .neg n => pure (Float.ofInt n)
  | other => refuse s!"expected number, got {other.compact}"

/-- A store budget, from a size or from the machine's memory. -/
def budget (req : Json) : Answer Json := do
  if let some gb := opt req "gb" then
    return Json.record [("bytes", .nat (Budget.ofGb (← float gb)).toNat), ("detected", .bool false)]
  let total ← u64 (← field req "total")
  let available ← u64 (← field req "available")
  return Json.record [("budget", .nat (Budget.ofMemory total available).toNat)]

end Console

end ShardStore
