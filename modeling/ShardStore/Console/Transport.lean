import ShardStore.Console.Calls
import ShardStore.Console.Membership
import ShardStore.Mesh.Switchboard
/-!
A session with the switchboard alone.

Steps bind and unbind addresses, push and receive frames, and make requests, which a stand-in
server at the address answers in one of three ways: it echoes the frame with a tab appended, it
drops the request, or it never answers. A client step runs one client call against a stand-in
agent that answers each request it receives with the next of a list of replies; the step shows
the requests received and the call's value or fault.
-/

namespace ShardStore

namespace Console

/-- The stand-in agent of a client step: where it listens, the replies it has left, and the
requests it received. -/
structure Scripted where
  board : Switchboard
  replies : List Reply
  received : Array Json

/-- Ask the stand-in agent: a bound address receives the request and answers with the next
reply; an agent out of replies drops the request. -/
def scriptedAsk (dest : Address) (msg : Message) : EStateM Fault Scripted Reply := do
  let s ← get
  if !s.board.isBound dest then throw (.unreachable dest "not bound")
  let seen := Json.record [("at", addressJson dest), ("msg", messageJson msg)]
  set { s with received := s.received.push seen }
  match s.replies with
  | [] => throw (.unreachable dest "request dropped without reply")
  | r :: rest =>
    modify fun s => { s with replies := rest }
    match r.intoResult with
    | .ok r => pure r
    | .error e => throw e

/-- Run one step. -/
def transportStep (b : Switchboard) (j : Json) : Answer (Json × Switchboard) := do
  let a ← address (← field j "addr")
  match ← str (← field j "op") with
  | "is_bound" => pure (.bool (b.isBound a), b)
  | "bind" =>
    match b.bind a with
    | .ok b => pure (.str "bound", b)
    | .error f => pure (faultJson f, b)
  | "unbind" => pure (.null, b.unbind a)
  | "push" => do
    match b.push a (← hex (← field j "hex")) with
    | .ok b => pure (.str "pushed", b)
    | .error f => pure (faultJson f, b)
  | "recv" =>
    match b.recv a with
    | (none, b) => pure (.null, b)
    | (some none, b) => pure (.str "nothing", b)
    | (some (some f), b) =>
      pure (Json.record [("expects_reply", .bool false), ("payload", hexJson f)], b)
  | "request" => do
    let frame ← hex (← field j "hex")
    if !b.isBound a then return (faultJson (.unreachable a "not bound"), b)
    match ← str ((opt j "server").getD (.str "echo")) with
    | "drop" => pure (faultJson (.unreachable a "request dropped without reply"), b)
    | "ignore" => pure (faultJson (.timeout a), b)
    | _ => pure (Json.record [("reply", hexJson (frame ++ [9]))], b)
  | "client" => do
    let replies ← (← listD j "replies").mapM reply
    let v ← match opt j "vagents" with
      | some v => u16 v
      | none => pure Address.startingVirtualNodes
    let x ← clientCall scriptedAsk address (replies.length + 1) (Client.make a v) j
    let r := match x.run ⟨b, replies, #[]⟩ with
      | .ok (r, _) s => (r, s.received)
      | .error e s => (.error e, s.received)
    pure (Json.record [("received", .arr r.2.toList), ("result", Json.record (resultFields r.1))], b)
  | other => refuse s!"unknown op {other}"

/-- A switchboard session. -/
def transportOp (req : Json) : Answer Json := do
  let (results, _) := (← listD req "steps").foldl (fun (acc, b) j =>
    match transportStep b j with
    | .ok (r, b) => (acc ++ [r], b)
    | .error e => (acc ++ [e], b)) ([], Switchboard.empty)
  pure (Json.record [("results", .arr results)])

end Console

end ShardStore
