import ShardStore.Wire.Message
import ShardStore.Text.Literal
/-!
Replies to requests.

A reply frame is one tag byte and the reply's fields: `0` acknowledges, `1` carries a count,
`2` a flag, `3` a text, `4` entries (each with its own length in front), `5` an optional value,
`6` addresses, and `0x7f` an error's code and message. An error reply becomes a `remote` fault
on the side that asked, so failures cross the network with their code intact.
-/

namespace ShardStore

/-- A reply. -/
inductive Reply where
  | ack
  | count (n : UInt64)
  | flag (b : Bool)
  | text (s : String)
  | entries (es : List Entry)
  | value (v : Option Bytes)
  | peers (as : List Address)
  | error (code message : String)
deriving DecidableEq, Repr, Inhabited

namespace Reply

/-- The error reply that reports a fault. -/
def ofFault (f : Fault) : Reply := .error f.code f.message

/-- An error reply becomes a remote fault; every other reply stands. -/
def intoResult : Reply → Outcome Reply
  | .error code message => .error (.remote code message)
  | r => .ok r

/-- The frame of a reply. -/
def encode : Reply → Bytes
  | .ack => [0x00]
  | .count n => 0x01 :: Bytes.ofU64 n
  | .flag b => 0x02 :: Encode.bool b
  | .text s => 0x03 :: Encode.string s
  | .entries es =>
    0x04 :: (Encode.len es.length ++ es.flatMap fun e => Encode.len e.size ++ e.encode)
  | .value none => [0x05, 0]
  | .value (some v) => 0x05 :: (Encode.bool true ++ Encode.bytes v)
  | .peers as => 0x06 :: Message.encodeAddresses as
  | .error code message => 0x7f :: (Encode.string code ++ Encode.string message)

/-- One entry of an entries reply: its length, then exactly that many bytes holding it. -/
def entryDecoder (N : Normalizer := .lenient) : Decoder Entry := do
  let size ← Decoder.len 1
  let bs ← Decoder.take size
  match Entry.decode bs N with
  | .ok e => pure e
  | .error err => Decoder.fail err

/-- The fields of the reply with a given tag, address words and tag lists normalized by `N`. -/
def bodyDecoder (t : UInt8) (N : Normalizer := .lenient) : Decoder Reply :=
  match t with
  | 0x00 => pure .ack
  | 0x01 => return .count (← Decoder.u64)
  | 0x02 => return .flag (← Decoder.bool)
  | 0x03 => return .text (← Decoder.string "text")
  | 0x04 => do
    let n ← Decoder.len 8
    return .entries (← Decoder.many (entryDecoder N) n)
  | 0x05 => do
    if ← Decoder.bool then return .value (some (← Decoder.bytes)) else pure (.value none)
  | 0x06 => return .peers (← Message.addressesDecoder N)
  | 0x7f => do
    let code ← Decoder.string "code"
    let message ← Decoder.string "message"
    pure (.error code message)
  | other => Decoder.fail (.unknownReplyTag other)

/-- Decode a whole reply frame, address words and tag lists normalized by `N`. -/
def decode (frame : Bytes) (N : Normalizer := .lenient) : Except DecodeError Reply :=
  Decoder.runAll (do bodyDecoder (← Decoder.u8) N) frame

/-- An address written field by field. -/
def addressLiteral (a : Address) : String :=
  "Address \x7b ip: " ++ a.ipText ++ ", slot: " ++ toString a.slot.toNat ++ " \x7d"

/-- A key written field by field. -/
def keyLiteral (k : Key) : String :=
  "DbKey \x7b chain_info: " ++ toString k.info.toNat ++ ", b: " ++ toString k.b.toInt ++
    ", c: " ++ toString k.c.toInt ++ " \x7d"

/-- An entry written field by field. -/
def entryLiteral (e : Entry) : String :=
  "DbEntry \x7b key: " ++ keyLiteral e.key ++ ", tags: " ++ Literal.stringSet e.tags.toList ++
    ", value: " ++ Literal.bytes e.value ++ " \x7d"

/-- A reply written out, as a fault that did not expect it quotes it. -/
def literal : Reply → String
  | .ack => "Ack"
  | .count n => s!"Count({n.toNat})"
  | .flag b => s!"Flag({b})"
  | .text s => "Text(" ++ Literal.string s ++ ")"
  | .entries es => "Entries(" ++ Literal.list "[" "]" (es.map entryLiteral) ++ ")"
  | .value v => "Value(" ++ Literal.option Literal.bytes v ++ ")"
  | .peers as => "Peers(" ++ Literal.list "[" "]" (as.map addressLiteral) ++ ")"
  | .error code message =>
    "Error \x7b code: " ++ Literal.string code ++ ", message: " ++ Literal.string message ++ " \x7d"

end Reply

end ShardStore
