import ShardStore.Mutation
import ShardStore.Graph.Basic
/-!
Messages between agents, and from clients to agents.

A frame is one type byte and the message's fields in the field codec. Decoding reads the type
byte, the fields in order, and refuses anything left over; every list is announced by a length
checked against the least size of its elements (eight bytes for an address, a string or a
count, sixteen for a barrier report pair or a vertex, twenty-four for a vertex message).
-/

namespace ShardStore

/-- A message. -/
inductive Message where
  | handshake (peers : List Address)
  | heartbeat (peers : List Address)
  | wantHeartbeat (sender : Address)
  | addNeighbor (addr : Address)
  | numNeighbors
  | getNeighbors
  | ringSize
  | stats (addr : Address) (dbSize : UInt64)
  | addEntry (entry : Entry)
  | addTag (key : Key) (tag : String)
  | removeTag (key : Key) (tag : String)
  | updateValue (key : Key) (value : Bytes)
  | subscribe (subscriber waitKey : Key) (wake : Wake)
  | getEntryByKey (key : Key)
  | addFilterDir (bundle : String)
  | addFilterDirBroadcast (bundle : String)
  | installFilter (name : String)
  | installFilterBroadcast (name : String)
  | clearFilters
  | clearFiltersBroadcast
  | addDbFile (path : String)
  | exportDb (dir : String)
  | exportDbBroadcast (dir : String)
  | importDb (path : String)
  | importDbDistribute (dir : String)
  | dbSize
  | getState
  | processing
  | query (tags : List String)
  | getEntries
  | installedFilters
  | printEntries
  | process (fresh : Bool)
  | processBroadcast
  | algProcess
  | startBarrierWait (sender : Address) (again : Bool) (sent : List (Address × UInt64))
  | barrierMsgDist (expected : UInt64)
  | atBarrier (sender : Address)
  | endBarrier
  | algVertices (sender : Address) (vertices : List (GraphId × VertexId))
  | algInternalCompute (sender : Address) (active : Bool) (iter : UInt64)
      (messages : List VertexMessage)
deriving DecidableEq, Repr, Inhabited

namespace Message

/-- The type byte of a message. -/
def typeByte : Message → UInt8
  | handshake _ => 0xa0
  | numNeighbors => 0xa1
  | addNeighbor _ => 0xa2
  | ringSize => 0xa3
  | addEntry _ => 0xa4
  | dbSize => 0xa5
  | addFilterDir _ => 0xa6
  | installFilter _ => 0xa7
  | process _ => 0xa8
  | addTag .. => 0xa9
  | startBarrierWait .. => 0xaa
  | barrierMsgDist _ => 0xab
  | endBarrier => 0xac
  | atBarrier _ => 0xad
  | stats .. => 0xb0
  | addDbFile _ => 0xb1
  | addFilterDirBroadcast _ => 0xb2
  | installFilterBroadcast _ => 0xb3
  | processBroadcast => 0xb4
  | printEntries => 0xb5
  | removeTag .. => 0xb6
  | updateValue .. => 0xb7
  | subscribe .. => 0xb8
  | getEntryByKey _ => 0xbb
  | installedFilters => 0xc0
  | getEntries => 0xc1
  | query _ => 0xc5
  | getNeighbors => 0xc6
  | processing => 0xc7
  | exportDb _ => 0xc8
  | exportDbBroadcast _ => 0xc9
  | importDb _ => 0xca
  | importDbDistribute _ => 0xcb
  | clearFiltersBroadcast => 0xcc
  | clearFilters => 0xcd
  | algProcess => 0xce
  | algInternalCompute .. => 0xcf
  | algVertices .. => 0xd0
  | getState => 0xd1
  | wantHeartbeat _ => 0xfe
  | heartbeat _ => 0xff

/-- The protocol name of a message's type, as agents report it. -/
def typeName : Message → String
  | handshake _ => "Handshake"
  | numNeighbors => "NumNeighbors"
  | addNeighbor _ => "AddNeighbor"
  | ringSize => "RingSize"
  | addEntry _ => "AddEntry"
  | dbSize => "DbSize"
  | addFilterDir _ => "AddFilterDir"
  | installFilter _ => "InstallFilter"
  | process _ => "Process"
  | addTag .. => "AddTagToEntry"
  | startBarrierWait .. => "StartBarrierWait"
  | barrierMsgDist _ => "BarrierMsgDist"
  | endBarrier => "EndBarrier"
  | atBarrier _ => "AtBarrier"
  | stats .. => "Stats"
  | addDbFile _ => "AddDbFile"
  | addFilterDirBroadcast _ => "AddFilterDirBroadcast"
  | installFilterBroadcast _ => "InstallFilterBroadcast"
  | processBroadcast => "ProcessBroadcast"
  | printEntries => "PrintEntries"
  | removeTag .. => "RemoveTagFromEntry"
  | updateValue .. => "UpdateEntryVal"
  | subscribe .. => "SubscribeToEntry"
  | getEntryByKey _ => "GetEntryByKey"
  | installedFilters => "InstalledFilters"
  | getEntries => "GetEntries"
  | query _ => "Query"
  | getNeighbors => "GetNeighbors"
  | processing => "Processing"
  | exportDb _ => "ExportDb"
  | exportDbBroadcast _ => "ExportDbBroadcast"
  | importDb _ => "ImportDb"
  | importDbDistribute _ => "ImportDbDistribute"
  | clearFiltersBroadcast => "ClearFiltersBroadcast"
  | clearFilters => "ClearFilters"
  | algProcess => "AlgProcess"
  | algInternalCompute .. => "AlgInternalCompute"
  | algVertices .. => "AlgVertices"
  | getState => "GetState"
  | wantHeartbeat _ => "WantHeartbeat"
  | heartbeat _ => "Heartbeat"

/-- A list of addresses with its length. -/
def encodeAddresses (as : List Address) : Bytes := Encode.len as.length ++ as.flatMap Encode.address

/-- A wake: its reason byte and its tag. -/
def encodeWake : Wake → Bytes
  | .removeTag t => [0] ++ Encode.string t
  | .addTag t => [1] ++ Encode.string t

/-- A vertex message's fields. -/
def encodeVertexMessage (m : VertexMessage) : Bytes :=
  Bytes.ofU64 m.graph ++ Bytes.ofI64 m.vtx ++ Encode.bytes m.payload

/-- The fields of a message, without its type byte. -/
def payload : Message → Bytes
  | handshake ps | heartbeat ps => encodeAddresses ps
  | wantHeartbeat a | addNeighbor a | atBarrier a => Encode.address a
  | stats a n => Encode.address a ++ Bytes.ofU64 n
  | addEntry e => e.encode
  | addTag k t | removeTag k t => Encode.key k ++ Encode.string t
  | updateValue k v => Encode.key k ++ Encode.bytes v
  | subscribe s w r => Encode.key s ++ Encode.key w ++ encodeWake r
  | getEntryByKey k => Encode.key k
  | addFilterDir s | addFilterDirBroadcast s | installFilter s | installFilterBroadcast s
  | addDbFile s | exportDb s | exportDbBroadcast s | importDb s | importDbDistribute s =>
    Encode.string s
  | query ts => Encode.len ts.length ++ ts.flatMap Encode.string
  | process b => Encode.bool b
  | startBarrierWait a b sent =>
    Encode.address a ++ Encode.bool b ++ Encode.len sent.length ++
      sent.flatMap fun (x, n) => Encode.address x ++ Bytes.ofU64 n
  | barrierMsgDist n => Bytes.ofU64 n
  | algVertices a vs =>
    Encode.address a ++ Encode.len vs.length ++ vs.flatMap fun (g, v) => Bytes.ofU64 g ++ Bytes.ofI64 v
  | algInternalCompute a b i ms =>
    Encode.address a ++ Encode.bool b ++ Bytes.ofU64 i ++ Encode.len ms.length ++
      ms.flatMap encodeVertexMessage
  | numNeighbors | getNeighbors | ringSize | clearFilters | clearFiltersBroadcast | dbSize
  | getState | processing | getEntries | installedFilters | printEntries | processBroadcast
  | algProcess | endBarrier => []

/-- The frame of a message. -/
def encode (m : Message) : Bytes := m.typeByte :: m.payload

/-- A counted list of addresses. -/
def addressesDecoder (N : Normalizer := .lenient) : Decoder (List Address) := do
  let n ← Decoder.len 8
  Decoder.many N.readAddress n

/-- A wake. -/
def wakeDecoder : Decoder Wake := do
  let b ← Decoder.u8
  if b == 0 then return .removeTag (← Decoder.string "wake tag")
  else if b == 1 then return .addTag (← Decoder.string "wake tag")
  else Decoder.fail (.invalid s!"wake reason {b.toNat}")

/-- A vertex message. -/
def vertexMessageDecoder : Decoder VertexMessage := do
  let g ← Decoder.u64
  let v ← Decoder.i64
  let p ← Decoder.bytes
  pure ⟨g, v, p⟩

/-- The fields of the message with a given type byte, address words and tag lists normalized
by `N`. -/
def bodyDecoder (t : UInt8) (N : Normalizer := .lenient) : Decoder Message :=
  match t with
  | 0xa0 => return handshake (← addressesDecoder N)
  | 0xff => return heartbeat (← addressesDecoder N)
  | 0xfe => return wantHeartbeat (← N.readAddress)
  | 0xa2 => return addNeighbor (← N.readAddress)
  | 0xa1 => pure numNeighbors
  | 0xc6 => pure getNeighbors
  | 0xa3 => pure ringSize
  | 0xb0 => do
    let a ← N.readAddress
    let n ← Decoder.u64
    pure (stats a n)
  | 0xa4 => return addEntry (← Entry.decoder N)
  | 0xa9 => do
    let k ← Decoder.key
    let t ← Decoder.string "tag"
    pure (addTag k t)
  | 0xb6 => do
    let k ← Decoder.key
    let t ← Decoder.string "tag"
    pure (removeTag k t)
  | 0xb7 => do
    let k ← Decoder.key
    let v ← Decoder.bytes
    pure (updateValue k v)
  | 0xb8 => do
    let s ← Decoder.key
    let w ← Decoder.key
    let r ← wakeDecoder
    pure (subscribe s w r)
  | 0xbb => return getEntryByKey (← Decoder.key)
  | 0xa6 => return addFilterDir (← Decoder.string "bundle")
  | 0xb2 => return addFilterDirBroadcast (← Decoder.string "bundle")
  | 0xa7 => return installFilter (← Decoder.string "filter name")
  | 0xb3 => return installFilterBroadcast (← Decoder.string "filter name")
  | 0xcd => pure clearFilters
  | 0xcc => pure clearFiltersBroadcast
  | 0xb1 => return addDbFile (← Decoder.string "path")
  | 0xc8 => return exportDb (← Decoder.string "dir")
  | 0xc9 => return exportDbBroadcast (← Decoder.string "dir")
  | 0xca => return importDb (← Decoder.string "path")
  | 0xcb => return importDbDistribute (← Decoder.string "dir")
  | 0xa5 => pure dbSize
  | 0xd1 => pure getState
  | 0xc7 => pure processing
  | 0xc5 => do
    let n ← Decoder.len 8
    return query (← Decoder.many (Decoder.string "tag") n)
  | 0xc1 => pure getEntries
  | 0xc0 => pure installedFilters
  | 0xb5 => pure printEntries
  | 0xa8 => return process (← Decoder.bool)
  | 0xb4 => pure processBroadcast
  | 0xce => pure algProcess
  | 0xaa => do
    let a ← N.readAddress
    let b ← Decoder.bool
    let n ← Decoder.len 16
    let sent ← Decoder.many (do
      let x ← N.readAddress
      let c ← Decoder.u64
      pure (x, c)) n
    pure (startBarrierWait a b sent)
  | 0xab => return barrierMsgDist (← Decoder.u64)
  | 0xad => return atBarrier (← N.readAddress)
  | 0xac => pure endBarrier
  | 0xd0 => do
    let a ← N.readAddress
    let n ← Decoder.len 16
    let vs ← Decoder.many (do
      let g ← Decoder.u64
      let v ← Decoder.i64
      pure (g, v)) n
    pure (algVertices a vs)
  | 0xcf => do
    let a ← N.readAddress
    let b ← Decoder.bool
    let i ← Decoder.u64
    let n ← Decoder.len 24
    let ms ← Decoder.many vertexMessageDecoder n
    pure (algInternalCompute a b i ms)
  | other => Decoder.fail (.unknownMessageType other)

/-- A message: type byte, then fields. -/
def decoder (N : Normalizer := .lenient) : Decoder Message := do
  let t ← Decoder.u8
  bodyDecoder t N

/-- Decode a whole frame, address words and tag lists normalized by `N`. -/
def decode (frame : Bytes) (N : Normalizer := .lenient) : Except DecodeError Message :=
  Decoder.runAll (decoder N) frame

end Message

/-- The message that carries a mutation to its owner. -/
def Mutation.toMessage : Mutation → Message
  | .addEntry e => .addEntry e
  | .addTag k t => .addTag k t
  | .removeTag k t => .removeTag k t
  | .updateValue k v => .updateValue k v
  | .subscribe s w r => .subscribe s w r

end ShardStore
