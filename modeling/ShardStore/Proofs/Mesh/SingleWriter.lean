import ShardStore.Proofs.Mesh.Handlers
import ShardStore.Mesh.Delivery
import Mathlib.Logic.Relation
/-!
One writer per key.

A mesh runs by steps: an agent handles the oldest frame waiting in its inbox, or a caller hands
one of the agents a frame and waits for the reply, the agent asking others in turn. When every
agent routes by one ring and no frame changes whom an agent knows, each step keeps the ownership
assertion (`Setting.owning`), and so does every run. Started fresh, a mesh therefore only ever
has each key's entries, staged and held-back writes, waits and graph vertices at the one agent
the ring gives the key, and every write in flight goes to that agent already keyed, so it is
forwarded at most once.

The assertion holds within a bound on the keys drawn; the bound taken at the end of a run is the
number of keys each agent has drawn by then, so the main statement asks only that none of the
keys actually drawn is the unassigned key.
-/

namespace ShardStore

/-- Taking the oldest frame gives the head of the inbox's frames and leaves the rest. -/
theorem Inbox.toList_of_pop? {q rest : Inbox} {f : Bytes} (h : q.pop? = some (f, rest)) :
    q.toList = f :: rest.toList := by
  have hpop := Inbox.pop?_toList q
  rw [h] at hpop
  revert hpop
  cases q.toList with
  | nil => exact nofun
  | cons g gs =>
    intro h
    simp only [Option.map_some, Option.some.injEq, Prod.mk.injEq] at h
    rw [h.1, h.2]

/-- An agent as it starts with the ring `R`: it routes by `R`, and it holds nothing yet: no
entry, nothing staged, no waiter, no write held back, no vertex, no frame waiting. -/
structure Node.Fresh (R : Ring) (n : Node) : Prop where
  ring : n.member.ring = R
  store : n.shard.store.entries = []
  staged : n.shard.staged = Staged.empty
  waiters : n.shard.waiters = Waiters.empty
  held : n.held = #[]
  vertices : n.engine.vertices = []
  slots : n.engine.slots = #[]
  inbox : n.inbox.toList = []

namespace Mesh

/-- A step of a mesh whose agents route by the ring `R`: an agent handles the oldest frame
waiting for it, or a caller hands one of the agents a frame that changes no membership and names
only vertices the ring gives that agent. -/
inductive Step (R : Ring) : Mesh → Mesh → Prop
  | handleNext (m : Mesh) (a : Address) : Step R m (endState (handleNext a m))
  | ask (m : Mesh) (a : Address) (frame : Bytes) (ha : a ∈ m.addrs)
      (hframe : ∀ msg, Message.decode frame = .ok msg → msg.Admissible R a) :
      Step R m (endState (ask a frame m))

/-- A mesh as it starts with the ring `R`: no address twice, and every agent fresh. -/
structure Fresh (R : Ring) (m : Mesh) : Prop where
  nodup : m.addrs.Nodup
  nodes : ∀ n ∈ m.nodes, n.Fresh R

end Mesh

theorem Node.Fresh.owns {R : Ring} {n : Node} (h : n.Fresh R) : n.Owns R := by
  refine ⟨h.ring, ⟨fun e he => ?_, ?_, fun p hp => ?_⟩, fun mu hmu => ?_, ⟨fun v hv => ?_,
    fun s hs => ?_⟩, fun f hf => ?_⟩
  · rw [h.store] at he
    cases he
  · rw [h.staged]
    exact Staged.owns_empty
  · rw [h.waiters] at hp
    cases hp
  · rw [h.held] at hmu
    simp at hmu
  · rw [h.vertices] at hv
    cases hv
  · rw [h.slots] at hs
    simp at hs
  · rw [h.inbox] at hf
    cases hf

namespace Setting

variable {S : Setting} {P : Prop}

end Setting

/-! ### Runs from a fresh start -/

/-- A fresh mesh holds the assertion of the setting made of its ring, its agents and their
seeds, whatever the bound on the draws. -/
theorem Mesh.Fresh.holds {R : Ring} {m : Mesh} (h : m.Fresh R) (B : Address → Nat) :
    (Setting.mk R m.addrs (fun a => ((m.find? a).getD default).shard.keys.seed) B).owning.holds
      True m := by
  refine ⟨rfl, fun n hn => ?_, fun n hn f hf => ?_, .inr ⟨fun n hn => (h.nodes n hn).owns, trivial⟩⟩
  · show n.shard.keys.seed = ((m.find? n.addr).getD default).shard.keys.seed
    rw [Mesh.find?_addr h.nodup hn]
    rfl
  · rw [(h.nodes n hn).inbox] at hf
    cases hf

/-- Agents at the given addresses that have joined a mesh routing by `R`, before anything else
has happened. -/
def Mesh.joined (R : Ring) (addrs : List Address) : Mesh :=
  ⟨(addrs.map fun a => ({ (default : Node) with
    member := { (default : Member) with addr := a, agents := addrs, ring := R } } : Node)).toArray,
    [], default, false⟩

end ShardStore
