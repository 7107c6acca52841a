import ShardStore.Console.Pure
import ShardStore.Console.Local
import ShardStore.Console.GraphSession
import ShardStore.Console.MeshSession
import ShardStore.Console.Transport
import ShardStore.Console.Live
import ShardStore.Console.Command
import ShardStore.Json.Read
/-!
Answering one request.

A request is a JSON object whose `op` member names what to do; the answer is one JSON value.
A line that is not JSON, or an object with an unknown `op`, is refused with a `BadInput` object.
-/

namespace ShardStore

namespace Console

/-- The answer to one request object. -/
def respond (req : Json) : Json :=
  settle do
    match ← str (← field req "op") with
    | "key" => keyInfo req
    | "pack" => pack req
    | "chain_tag" => chainTag req
    | "key_sort" => keySort req
    | "address" => addressOp req
    | "ring" => ringOp req
    | "entry" => entryOp req
    | "entry_decode" => entryDecode req
    | "entries_serialize" => entriesSerialize req
    | "entries_deserialize" => entriesDeserialize req
    | "parse_db_file" => parseDbFile req
    | "msg_decode" => msgDecode req
    | "msg_encode" => msgEncode req
    | "reply_decode" => replyDecode req
    | "reply_encode" => replyEncode req
    | "codec_read" => codecRead req
    | "codec_write" => codecWrite req
    | "budget" => budget req
    | "config" => configOp req
    | "live" => liveOp req
    | "cli" => cliOp req
    | "tcp" => tcpOp req
    | "catalog" => catalogOp req
    | "ledger" => ledgerOp req
    | "wait" => waitOp req
    | "tally" => tallyOp req
    | "exchange" => exchangeOp req
    | "board" => boardOp req
    | "subs" => subsOp req
    | "staging" => stagingOp req
    | "store" => storeOp req
    | "db" => localOp req
    | "graph" => graphOp req
    | "mesh" => meshOp req
    | "participant" => participantOp req
    | "memory_transport" => transportOp req
    | other => refuse s!"unknown op {other}"

/-- The answer line to one request line. -/
def answerLine (line : String) : String :=
  match Json.parse line with
  | .ok req => (respond req).compact
  | .error e => (badInput s!"bad request: {e}").compact

end Console

end ShardStore
