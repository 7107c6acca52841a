import ShardStore.Address
/-!
What can go wrong, as causes.

`DecodeError` names the ways a byte string fails to be a frame, an entry or an export; `Fault`
names everything else an agent, a store or a configuration can refuse, and wraps a decode error.
Each kind has one rendered message and one coarse code, which is what an agent sends back in an
error reply; only running out of store space stops an agent.
-/

namespace ShardStore

/-- Why bytes could not be decoded. -/
inductive DecodeError where
  /-- A read needed more bytes than were left. -/
  | truncated (needed remaining : Nat)
  /-- A frame began with a byte that names no message. -/
  | unknownMessageType (byte : UInt8)
  /-- A reply began with a byte that names no reply. -/
  | unknownReplyTag (byte : UInt8)
  /-- A text field held bytes that are not UTF-8. -/
  | invalidUtf8 (field : String)
  /-- Bytes were left over after a complete value. -/
  | trailingBytes (count : Nat)
  /-- A field held a value outside its range. -/
  | invalid (what : String)
deriving DecidableEq, Repr

namespace DecodeError

/-- Two lowercase hexadecimal digits of a byte. -/
def byteHex (b : UInt8) : String := Bytes.toHex [b]

/-- The message of a decode error. -/
def message : DecodeError → String
  | truncated n r => s!"truncated input: needed {n} bytes, {r} remaining"
  | unknownMessageType b => s!"unknown message type 0x{byteHex b}"
  | unknownReplyTag b => s!"unknown reply tag 0x{byteHex b}"
  | invalidUtf8 f => s!"invalid utf-8 in {f}"
  | trailingBytes n => s!"{n} trailing bytes after message"
  | invalid s => s!"invalid payload: {s}"

/-- The name of the kind of decode error. -/
def kindName : DecodeError → String
  | truncated .. => "Truncated"
  | unknownMessageType _ => "UnknownMessageType"
  | unknownReplyTag _ => "UnknownReplyTag"
  | invalidUtf8 _ => "InvalidUtf8"
  | trailingBytes _ => "TrailingBytes"
  | invalid _ => "Invalid"

end DecodeError

/-- Why an operation of an agent, a store or a configuration was refused. -/
inductive Fault where
  | unknownAgent (a : Address)
  /-- Ownership was asked of a ring with no positions. -/
  | emptyRing
  | unreachable (a : Address) (reason : String)
  | invalidAddress (text : String)
  | timeout (a : Address)
  /-- A message arrived that the agent's state does not allow. -/
  | protocolState (what : String)
  /-- Another agent answered with an error reply. -/
  | remote (code message : String)
  /-- A change would take the store over its byte limit. -/
  | outOfSpace (requested used limit : Nat)
  | filterNotFound (name : String)
  | bundleNotFound (name : String)
  | invalidDbFile (what : String)
  | config (what : String)
  | decode (e : DecodeError)
  /-- A file or transport operation failed; the text is the system's. -/
  | io (what : String)
  | json (what : String)
deriving DecidableEq, Repr

namespace Fault

/-- The rendered message. -/
def message : Fault → String
  | unknownAgent a => s!"unknown agent: {a.render}"
  | emptyRing => "ownership lookup on an empty ring"
  | unreachable a r => s!"agent {a.render} unreachable: {r}"
  | invalidAddress s => s!"invalid address '{s}'"
  | timeout a => s!"request to {a.render} timed out"
  | protocolState s => s!"protocol state error: {s}"
  | remote c m => s!"agent replied with error {c}: {m}"
  | outOfSpace r u l => s!"out of space: {r} bytes requested, {u}/{l} used"
  | filterNotFound s => s!"filter not found: {s}"
  | bundleNotFound s => s!"filter bundle not found: {s}"
  | invalidDbFile s => s!"invalid db file: {s}"
  | config s => s!"configuration error: {s}"
  | decode e => s!"decode error: {e.message}"
  | io s => s!"IO error: {s}"
  | json s => s!"JSON error: {s}"

/-- The coarse code sent in error replies. -/
def code : Fault → String
  | unknownAgent _ | emptyRing | unreachable .. | invalidAddress _ | timeout _ => "ROUTING"
  | protocolState _ => "PROTOCOL_STATE"
  | outOfSpace .. => "OUT_OF_SPACE"
  | filterNotFound _ | bundleNotFound _ => "FILTER_NOT_FOUND"
  | decode _ => "DECODE"
  | remote .. => "REMOTE"
  | _ => "INTERNAL_ERROR"

/-- Whether the agent that met this fault stops. -/
def isFatal : Fault → Bool
  | outOfSpace .. => true
  | _ => false

/-- Whether the fault is about reaching an agent. -/
def isRouting (f : Fault) : Bool := f.code == "ROUTING"

/-- The name of the kind of fault, with the decode kind for a decode fault. -/
def kindName : Fault → String
  | unknownAgent _ => "UnknownAgent"
  | emptyRing => "EmptyRing"
  | unreachable .. => "Unreachable"
  | invalidAddress _ => "InvalidAddress"
  | timeout _ => "Timeout"
  | protocolState _ => "ProtocolState"
  | remote .. => "Remote"
  | outOfSpace .. => "OutOfSpace"
  | filterNotFound _ => "FilterNotFound"
  | bundleNotFound _ => "FilterBundleNotFound"
  | invalidDbFile _ => "InvalidDbFile"
  | config _ => "Config"
  | decode e => s!"Decode::{e.kindName}"
  | io _ => "Io"
  | json _ => "Json"

end Fault

/-- Results that may fail with a fault. -/
abbrev Outcome (α : Type) := Except Fault α

/-- Read an address, failing with the text that was refused. -/
def Address.parse (s : String) : Outcome Address :=
  match Address.parse? s with
  | some a => .ok a
  | none => .error (.invalidAddress s)

end ShardStore
