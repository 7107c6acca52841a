import ShardStore.Fault
import ShardStore.Mesh.Inbox
/-!
An in-process switchboard: addresses bound to inboxes.

Binding an address gives it an empty inbox; an address can be bound once until it is unbound.
Pushing to a bound address appends the frame to its inbox and pushing anywhere else cannot be
delivered; receiving takes the oldest frame.
-/

namespace ShardStore

/-- Bound addresses with their inboxes, in the order they were bound. -/
structure Switchboard where
  lines : List (Address × Inbox)
deriving Inhabited

namespace Switchboard

/-- Nothing bound. -/
def empty : Switchboard := ⟨[]⟩

/-- Whether an address is bound. -/
def isBound (b : Switchboard) (a : Address) : Bool := b.lines.any (·.1 == a)

/-- Bind an address to an empty inbox. -/
def bind (b : Switchboard) (a : Address) : Outcome Switchboard :=
  if b.isBound a then .error (.io s!"{a.render} already bound")
  else .ok ⟨b.lines ++ [(a, Inbox.empty)]⟩

/-- Unbind an address, dropping what waits in its inbox. -/
def unbind (b : Switchboard) (a : Address) : Switchboard := ⟨b.lines.filter (·.1 != a)⟩

/-- Push a frame to a bound address. -/
def push (b : Switchboard) (a : Address) (frame : Bytes) : Outcome Switchboard :=
  if b.isBound a then
    .ok ⟨b.lines.map fun (x, q) => if x == a then (x, q.push frame) else (x, q)⟩
  else .error (.unreachable a "not bound")

/-- Take the oldest frame at an address: nothing if it is not bound, and no frame if its inbox
is empty. -/
def recv (b : Switchboard) (a : Address) : Option (Option Bytes) × Switchboard :=
  match b.lines.find? (·.1 == a) with
  | none => (none, b)
  | some (_, q) =>
    match q.pop? with
    | none => (some none, b)
    | some (f, rest) =>
      (some (some f), ⟨b.lines.map fun (x, q) => if x == a then (x, rest) else (x, q)⟩)

end Switchboard

end ShardStore
