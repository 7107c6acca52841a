import ShardStore.Wire.Reply
import ShardStore.Json.Write
/-!
The JSON forms of the store's values, for requests and answers.

A request is one JSON object and its answer is one JSON value. Reading a request can fail before
the store is asked anything; the answer is then an error object, so every reader here returns
`Answer`, whose failure value is the finished answer. Faults and decode errors have their own
error objects, naming their kind and message, and a fault also its code.

Keys are `[info, b, c]` (`null` in a request for the unassigned key), addresses their text (or a
serial number in a request), bytes a string when they are UTF-8 and `\x7b"hex": ...\x7d` when not,
entries `\x7b"key", "tags", "value"\x7d`.
-/

namespace ShardStore

namespace Json

/-- An object from members in any order, kept sorted by key. -/
def record (fs : List (String × Json)) : Json :=
  .obj (fs.foldl (fun acc (k, v) => insertField k v acc) [])

/-- An integer value, if the value is one. -/
def int? : Json → Option Int
  | nat n => some n
  | neg n => some n
  | _ => none

end Json

namespace Console

/-- Reading a request: a value, or the answer that refuses it. -/
abbrev Answer (α : Type) := Except Json α

/-- The answer to a request that does not make sense. -/
def badInput (msg : String) : Json :=
  Json.record [("error", .str "BadInput"), ("message", .str msg)]

/-- Refuse a request. -/
def refuse {α : Type} (msg : String) : Answer α := .error (badInput msg)

/-- The error object of a fault. -/
def faultJson (f : Fault) : Json :=
  Json.record [("code", .str f.code), ("error", .str ("PandoError::" ++ f.kindName)),
    ("message", .str f.message)]

/-- The error object of a decode error. -/
def decodeJson (e : DecodeError) : Json :=
  Json.record [("error", .str ("DecodeError::" ++ e.kindName)), ("message", .str e.message)]

/-- Answer with a fault. -/
def lift {α : Type} : Outcome α → Answer α
  | .ok x => .ok x
  | .error f => .error (faultJson f)

/-- Answer with a decode error. -/
def liftDecode {α : Type} : Except DecodeError α → Answer α
  | .ok x => .ok x
  | .error e => .error (decodeJson e)

/-- The value of an outcome, or its error object. -/
def outcomeJson {α : Type} (show_ : α → Json) : Outcome α → Json
  | .ok x => show_ x
  | .error f => faultJson f

/-- The answer itself, whichever way it came. -/
def settle : Answer Json → Json
  | .ok j => j
  | .error j => j

/-! ### Reading requests -/

/-- A member that must be there. -/
def field (j : Json) (k : String) : Answer Json :=
  match j.get? k with
  | some v => pure v
  | none => refuse s!"missing field {k}"

/-- A member, `none` when it is missing or null. -/
def opt (j : Json) (k : String) : Option Json :=
  match j.get? k with
  | some .null => none
  | other => other

/-- A string. -/
def str (j : Json) : Answer String :=
  match j with
  | .str s => pure s
  | other => refuse s!"expected string, got {other.compact}"

/-- A boolean. -/
def bool (j : Json) : Answer Bool :=
  match j with
  | .bool b => pure b
  | other => refuse s!"expected bool, got {other.compact}"

/-- An array. -/
def arr (j : Json) : Answer (List Json) :=
  match j with
  | .arr xs => pure xs
  | other => refuse s!"expected array, got {other.compact}"

/-- An object's members. -/
def members (j : Json) : Answer (List (String × Json)) :=
  match j with
  | .obj fs => pure fs
  | other => refuse s!"expected object, got {other.compact}"

/-- An integer. -/
def int (j : Json) : Answer Int :=
  match j.int? with
  | some i => pure i
  | none => refuse s!"expected integer, got {j.compact}"

/-- A natural number below `2 ^ bits`. -/
def natBelow (bits : Nat) (j : Json) : Answer Nat := do
  let i ← int j
  if 0 ≤ i ∧ i < Int.pow 2 bits then pure i.toNat else refuse s!"{i} out of range for u{bits}"

/-- A 64-bit word. -/
def u64 (j : Json) : Answer UInt64 := do return UInt64.ofNat (← natBelow 64 j)

/-- A 32-bit word. -/
def u32 (j : Json) : Answer UInt32 := do return UInt32.ofNat (← natBelow 32 j)

/-- A 16-bit word. -/
def u16 (j : Json) : Answer UInt16 := do return UInt16.ofNat (← natBelow 16 j)

/-- A byte. -/
def u8 (j : Json) : Answer UInt8 := do return UInt8.ofNat (← natBelow 8 j)

/-- A signed 64-bit word. -/
def i64 (j : Json) : Answer Int64 := do
  let i ← int j
  if -Int.pow 2 63 ≤ i ∧ i < Int.pow 2 63 then pure (Int64.ofInt i)
  else refuse s!"{i} out of range for i64"

/-- A natural number member with a default for a missing or null one. -/
def natD (j : Json) (k : String) (d : Nat) : Answer Nat :=
  match opt j k with
  | some v => natBelow 64 v
  | none => pure d

/-- A boolean member with a default for a missing or null one. -/
def boolD (j : Json) (k : String) (d : Bool) : Answer Bool :=
  match opt j k with
  | some v => bool v
  | none => pure d

/-- A list member, empty when missing or null. -/
def listD (j : Json) (k : String) : Answer (List Json) :=
  match opt j k with
  | some v => arr v
  | none => pure []

/-- A list of strings. -/
def strs (j : Json) : Answer (List String) := do (← arr j).mapM str

/-- Hexadecimal text. -/
def hex (j : Json) : Answer Bytes := do
  match Bytes.ofHex? (← str j) with
  | some bs => pure bs
  | none => refuse "bad hex"

/-- A key; `null` is the unassigned key. -/
def key (j : Json) : Answer Key :=
  match j with
  | .null => pure Key.unassigned
  | .arr [a, b, c] =>
    match a.int?, b.int?, c.int? with
    | some a, some b, some c =>
      if 0 ≤ a ∧ a < Int.pow 2 64 ∧ -Int.pow 2 63 ≤ b ∧ b < Int.pow 2 63 ∧
          -Int.pow 2 63 ≤ c ∧ c < Int.pow 2 63 then
        pure ⟨UInt64.ofNat a.toNat, Int64.ofInt b, Int64.ofInt c⟩
      else refuse s!"bad key {j.compact}"
    | _, _, _ => refuse s!"bad key {j.compact}"
  | other => refuse s!"bad key {other.compact}"

/-- An address: its text, or a serial number. -/
def address (j : Json) : Answer Address :=
  match j with
  | .str s => lift (Address.parse s)
  | .nat n => pure (Address.ofSerial (UInt64.ofNat n))
  | other => refuse s!"bad address {other.compact}"

/-- Bytes: UTF-8 text, hexadecimal under `hex`, or `null` for none. -/
def bytes (j : Json) : Answer Bytes :=
  match j with
  | .null => pure []
  | .str s => pure (Bytes.ofString s)
  | .obj _ => do hex (← field j "hex")
  | other => refuse s!"bad bytes {other.compact}"

/-- A bytes member, empty when missing. -/
def bytesD (j : Json) (k : String) : Answer Bytes :=
  match j.get? k with
  | some v => bytes v
  | none => pure []

/-- An entry. With `unkeyed`, a missing key is the unassigned key and the value must be given. -/
def entry (j : Json) (unkeyed : Bool := false) : Answer Entry := do
  let k ← match j.get? "key" with
    | some v => key v
    | none => if unkeyed then pure Key.unassigned else refuse "missing field key"
  let tags ← listD j "tags"
  let tags ← tags.mapM str
  let value ← if unkeyed then do bytes (← field j "value") else bytesD j "value"
  pure (Entry.make k tags value)

/-- A wake: `\x7b"remove_tag": t\x7d` or `\x7b"add_tag": t\x7d`. -/
def wake (j : Json) : Answer Wake :=
  match opt j "remove_tag", opt j "add_tag" with
  | some t, _ => do return .removeTag (← str t)
  | none, some t => do return .addTag (← str t)
  | none, none => refuse s!"bad wake {j.compact}"

/-- A mutation, named by its `m` member. -/
def mutation (j : Json) : Answer Mutation := do
  match ← str (← field j "m") with
  | "add_entry" => return .addEntry (← entry (← field j "entry"))
  | "add_tag" => return .addTag (← key (← field j "key")) (← str (← field j "tag"))
  | "remove_tag" => return .removeTag (← key (← field j "key")) (← str (← field j "tag"))
  | "update_value" => return .updateValue (← key (← field j "key")) (← bytesD j "value")
  | "subscribe" =>
    return .subscribe (← key (← field j "subscriber")) (← key (← field j "wait_key"))
      (← wake (← field j "wake"))
  | other => refuse s!"unknown mutation {other}"

/-- A vertex message. -/
def vertexMessage (j : Json) : Answer VertexMessage := do
  return ⟨← u64 (← field j "graph"), ← i64 (← field j "vtx"), ← hex (← field j "payload")⟩

/-- A pair in a JSON array of two. -/
def pair (j : Json) : Answer (Json × Json) :=
  match j with
  | .arr [a, b] => pure (a, b)
  | other => refuse s!"expected pair, got {other.compact}"

/-- A list of addresses. -/
def addresses (j : Json) : Answer (List Address) := do (← arr j).mapM address

/-- A message, named by its `type` member. -/
def message (j : Json) : Answer Message := do
  let s (k : String) : Answer String := do str (← field j k)
  let a (k : String) : Answer Address := do address (← field j k)
  match ← s "type" with
  | "Handshake" => return .handshake (← addresses (← field j "peers"))
  | "Heartbeat" => return .heartbeat (← addresses (← field j "peers"))
  | "WantHeartbeat" => return .wantHeartbeat (← a "from")
  | "AtBarrier" => return .atBarrier (← a "from")
  | "AddNeighbor" => return .addNeighbor (← a "addr")
  | "Stats" => return .stats (← a "addr") (← u64 (← field j "db_size"))
  | "AddEntry" => return .addEntry (← entry (← field j "entry"))
  | "AddTag" => return .addTag (← key (← field j "key")) (← s "tag")
  | "RemoveTag" => return .removeTag (← key (← field j "key")) (← s "tag")
  | "UpdateValue" => return .updateValue (← key (← field j "key")) (← bytesD j "value")
  | "Subscribe" =>
    return .subscribe (← key (← field j "subscriber")) (← key (← field j "wait_key"))
      (← wake (← field j "wake"))
  | "GetEntryByKey" => return .getEntryByKey (← key (← field j "key"))
  | "AddFilterDir" => return .addFilterDir (← s "bundle")
  | "AddFilterDirBroadcast" => return .addFilterDirBroadcast (← s "bundle")
  | "InstallFilter" => return .installFilter (← s "name")
  | "InstallFilterBroadcast" => return .installFilterBroadcast (← s "name")
  | "AddDbFile" => return .addDbFile (← s "path")
  | "ImportDb" => return .importDb (← s "path")
  | "ExportDb" => return .exportDb (← s "dir")
  | "ExportDbBroadcast" => return .exportDbBroadcast (← s "dir")
  | "ImportDbDistribute" => return .importDbDistribute (← s "dir")
  | "Query" => return .query (← strs (← field j "tags"))
  | "Process" => return .process (← bool (← field j "fresh"))
  | "StartBarrierWait" => do
    let sent ← (← arr (← field j "sent")).mapM fun p => do
      let (x, n) ← pair p
      return (← address x, ← u64 n)
    return .startBarrierWait (← a "from") (← bool (← field j "process_again")) sent
  | "BarrierMsgDist" => return .barrierMsgDist (← u64 (← field j "expected"))
  | "AlgVertices" => do
    let vs ← (← arr (← field j "vertices")).mapM fun p => do
      let (g, v) ← pair p
      return (← u64 g, ← i64 v)
    return .algVertices (← a "from") vs
  | "AlgInternalCompute" =>
    return .algInternalCompute (← a "from") (← bool (← field j "active"))
      (← u64 (← field j "iter")) (← (← arr (← field j "messages")).mapM vertexMessage)
  | "NumNeighbors" => pure .numNeighbors
  | "GetNeighbors" => pure .getNeighbors
  | "RingSize" => pure .ringSize
  | "ClearFilters" => pure .clearFilters
  | "ClearFiltersBroadcast" => pure .clearFiltersBroadcast
  | "DbSize" => pure .dbSize
  | "GetState" => pure .getState
  | "Processing" => pure .processing
  | "GetEntries" => pure .getEntries
  | "InstalledFilters" => pure .installedFilters
  | "PrintEntries" => pure .printEntries
  | "ProcessBroadcast" => pure .processBroadcast
  | "AlgProcess" => pure .algProcess
  | "EndBarrier" => pure .endBarrier
  | other => refuse s!"unknown message type {other}"

/-- A reply, named by its `reply` member. -/
def reply (j : Json) : Answer Reply := do
  match ← str (← field j "reply") with
  | "Ack" => pure .ack
  | "Count" => return .count (← u64 (← field j "n"))
  | "Flag" => return .flag (← bool (← field j "flag"))
  | "Text" => return .text (← str (← field j "text"))
  | "Entries" => return .entries (← (← arr (← field j "entries")).mapM fun e => entry e)
  | "Value" =>
    match opt j "value" with
    | none => pure (.value none)
    | some v => return .value (some (← bytes v))
  | "Peers" => return .peers (← addresses (← field j "peers"))
  | "Error" => return .error (← str (← field j "code")) (← str (← field j "message"))
  | other => refuse s!"unknown reply {other}"

/-! ### Writing answers -/

/-- A key. -/
def keyJson (k : Key) : Json := .arr [.nat k.info.toNat, .int k.b.toInt, .int k.c.toInt]

/-- An address. -/
def addressJson (a : Address) : Json := .str a.render

/-- Bytes: text when they are UTF-8, hexadecimal otherwise. -/
def bytesJson (bs : Bytes) : Json :=
  match Bytes.utf8? bs with
  | some s => .str s
  | none => Json.record [("hex", .str (Bytes.toHex bs))]

/-- Hexadecimal text. -/
def hexJson (bs : Bytes) : Json := .str (Bytes.toHex bs)

/-- An entry, with a chosen form for keys. -/
def entryJsonWith (kj : Key → Json) (e : Entry) : Json :=
  Json.record [("key", kj e.key), ("tags", .arr (e.tags.toList.map .str)),
    ("value", bytesJson e.value)]

/-- An entry. -/
def entryJson (e : Entry) : Json := entryJsonWith keyJson e

/-- A wake. -/
def wakeJson : Wake → Json
  | .removeTag t => Json.record [("remove_tag", .str t)]
  | .addTag t => Json.record [("add_tag", .str t)]

/-- A mutation, with a chosen form for keys. -/
def mutationJsonWith (kj : Key → Json) : Mutation → Json
  | .addEntry e => Json.record [("m", .str "add_entry"), ("entry", entryJsonWith kj e)]
  | .addTag k t => Json.record [("m", .str "add_tag"), ("key", kj k), ("tag", .str t)]
  | .removeTag k t => Json.record [("m", .str "remove_tag"), ("key", kj k), ("tag", .str t)]
  | .updateValue k v =>
    Json.record [("m", .str "update_value"), ("key", kj k), ("value", bytesJson v)]
  | .subscribe s w r =>
    Json.record [("m", .str "subscribe"), ("subscriber", kj s), ("wait_key", kj w),
      ("wake", wakeJson r)]

/-- A mutation. -/
def mutationJson (m : Mutation) : Json := mutationJsonWith keyJson m

/-- A vertex message. -/
def vertexMessageJson (m : VertexMessage) : Json :=
  Json.record [("graph", .nat m.graph.toNat), ("vtx", .int m.vtx.toInt),
    ("payload", hexJson m.payload)]

/-- The name a message has in requests and answers. -/
def messageName : Message → String
  | .addTag .. => "AddTag"
  | .removeTag .. => "RemoveTag"
  | .updateValue .. => "UpdateValue"
  | .subscribe .. => "Subscribe"
  | m => m.typeName

/-- The fields of a message besides its type. -/
def messageFields : Message → List (String × Json)
  | .handshake ps | .heartbeat ps => [("peers", .arr (ps.map addressJson))]
  | .wantHeartbeat a | .atBarrier a => [("from", addressJson a)]
  | .addNeighbor a => [("addr", addressJson a)]
  | .stats a n => [("addr", addressJson a), ("db_size", .nat n.toNat)]
  | .addEntry e => [("entry", entryJson e)]
  | .addTag k t | .removeTag k t => [("key", keyJson k), ("tag", .str t)]
  | .updateValue k v => [("key", keyJson k), ("value", bytesJson v)]
  | .subscribe s w r => [("subscriber", keyJson s), ("wait_key", keyJson w), ("wake", wakeJson r)]
  | .getEntryByKey k => [("key", keyJson k)]
  | .addFilterDir b | .addFilterDirBroadcast b => [("bundle", .str b)]
  | .installFilter n | .installFilterBroadcast n => [("name", .str n)]
  | .addDbFile p | .importDb p => [("path", .str p)]
  | .exportDb d | .exportDbBroadcast d | .importDbDistribute d => [("dir", .str d)]
  | .query ts => [("tags", .arr (ts.map .str))]
  | .process f => [("fresh", .bool f)]
  | .startBarrierWait a b sent =>
    [("from", addressJson a), ("process_again", .bool b),
      ("sent", .arr (sent.map fun (x, n) => .arr [addressJson x, .nat n.toNat]))]
  | .barrierMsgDist n => [("expected", .nat n.toNat)]
  | .algVertices a vs =>
    [("from", addressJson a),
      ("vertices", .arr (vs.map fun (g, v) => .arr [.nat g.toNat, .int v.toInt]))]
  | .algInternalCompute a b i ms =>
    [("from", addressJson a), ("active", .bool b), ("iter", .nat i.toNat),
      ("messages", .arr (ms.map vertexMessageJson))]
  | _ => []

/-- A message. -/
def messageJson (m : Message) : Json :=
  Json.record (("type", .str (messageName m)) :: messageFields m)

/-- A reply. -/
def replyJson : Reply → Json
  | .ack => Json.record [("reply", .str "Ack")]
  | .count n => Json.record [("reply", .str "Count"), ("n", .nat n.toNat)]
  | .flag b => Json.record [("reply", .str "Flag"), ("flag", .bool b)]
  | .text s => Json.record [("reply", .str "Text"), ("text", .str s)]
  | .entries es => Json.record [("reply", .str "Entries"), ("entries", .arr (es.map entryJson))]
  | .value v =>
    Json.record [("reply", .str "Value"), ("value", (v.map bytesJson).getD .null)]
  | .peers as => Json.record [("reply", .str "Peers"), ("peers", .arr (as.map addressJson))]
  | .error c m => Json.record [("reply", .str "Error"), ("code", .str c), ("message", .str m)]

end Console

end ShardStore
