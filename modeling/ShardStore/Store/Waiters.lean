import ShardStore.Mutation
/-!
Subscriptions: entries waiting for another entry to appear.

A waiter names the subscribing entry and the wake it gets; the waiters of one key are kept in
the order they registered, and registering the same waiter twice keeps it once. When the key's
entry appears its waiters are removed together and become mutations on the subscribers.
-/

namespace ShardStore

/-- One waiting entry. -/
structure Waiter where
  subscriber : Key
  wake : Wake
deriving DecidableEq, Repr, Inhabited

/-- Waiters by the key they wait on. -/
structure Waiters where
  byKey : List (Key × List Waiter)
deriving Inhabited

namespace Waiters

/-- No waiters. -/
def empty : Waiters := ⟨[]⟩

/-- The waiters on a key, in registration order. -/
def waitingOn (w : Waiters) (k : Key) : List Waiter :=
  ((w.byKey.find? (·.1 = k)).map (·.2)).getD []

/-- Register a waiter on a key, once. -/
def register (w : Waiters) (waitKey subscriber : Key) (wake : Wake) : Waiters :=
  let x : Waiter := ⟨subscriber, wake⟩
  match w.byKey.find? (·.1 = waitKey) with
  | some (_, xs) =>
    if xs.contains x then w
    else ⟨w.byKey.map fun (k, ys) => if k = waitKey then (k, ys ++ [x]) else (k, ys)⟩
  | none => ⟨w.byKey ++ [(waitKey, [x])]⟩

/-- Remove the waiters on a key, as the mutations that wake them. -/
def fire (w : Waiters) (k : Key) : List Mutation × Waiters :=
  ((w.waitingOn k).map fun x => Mutation.ofWake x.subscriber x.wake,
    ⟨w.byKey.filter (·.1 ≠ k)⟩)

/-- The number of waiters. -/
def size (w : Waiters) : Nat := w.byKey.foldl (fun n (_, ws) => n + ws.length) 0

/-- Whether no key has waiters. -/
def isEmpty (w : Waiters) : Bool := w.byKey.isEmpty

end Waiters

end ShardStore
