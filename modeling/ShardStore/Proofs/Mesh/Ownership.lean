import ShardStore.Mesh.Agent
import ShardStore.Proofs.Wire.Frames
import ShardStore.Proofs.Shard.Ownership
import ShardStore.Proofs.Graph.Arena
import Mathlib.Data.List.Nodup
/-!
Who holds which keys in a mesh.

A mesh runs with a fixed ring: every agent routes every key the same way. The ownership invariant
says that each agent then holds only what the ring gives it. Every entry it stores, stages or
waits on, every write it holds back and every vertex of its graph arena is for a key the ring
gives it, and every frame waiting in its inbox is a message pushed to it under the ring: no
change of membership, only vertices the ring gives it, and only writes for its keys that
already have their keys.

New entries get random keys from the agents' key sources, and a random key could be the
unassigned key itself; the invariant holds as long as no key drawn is that key. This is put as
a bound on the draws: `Setting.owning` holds of a mesh where some agent has drawn more keys
than its bound allows, or where the invariant holds. When no draw within the bounds is the
unassigned key, every change of the mesh keeps it.

This module states the invariant and what the primitive changes of a mesh do to it: changing an
agent, running an operation on its shard, pushing a message, reading an agent.
-/

namespace ShardStore

/-- The ring gives key `k` to agent `X`. -/
def Ring.Gives (R : Ring) (X : Address) (k : Key) : Prop := R.owner k = .ok X

/-- The key that names a vertex: its graph, its number, and nothing more. -/
def Vertex.key (v : Vertex) : Key := ⟨v.1, v.2, 0⟩

/-- A write agent `X` may take under the ring `R`: the ring gives `X` its key, and it has its
key already. -/
structure Mutation.For (R : Ring) (X : Address) (mu : Mutation) : Prop where
  owner : R.Gives X mu.routeKey
  keyed : mu.Keyed

/-- A message agent `X` may be handed under the ring `R`, by any caller: it changes no one's
membership, and it names only vertices the ring gives `X`. -/
structure Message.Admissible (R : Ring) (X : Address) (msg : Message) : Prop where
  steady : msg.changesMembership = false
  vertices : ∀ a vs, msg = .algVertices a vs → ∀ v ∈ vs, R.Gives X (Vertex.key v)

/-- A message pushed to agent `X` under the ring `R`: admissible, and any write it carries is
one `X` may take. -/
structure Message.InFlight (R : Ring) (X : Address) (msg : Message) : Prop
    extends msg.Admissible R X where
  write : ∀ mu, msg.mutation? = some mu → mu.For R X

/-- A control message: it changes no membership, carries no write and names no vertices. -/
structure Message.Control (msg : Message) : Prop where
  steady : msg.changesMembership = false
  noWrite : msg.mutation? = none
  noVertices : ∀ a vs, msg ≠ .algVertices a vs

/-- Agent `n` holds only what the ring `R` gives it, and routes by `R`. -/
structure Node.Owns (R : Ring) (n : Node) : Prop where
  ring : n.member.ring = R
  shard : n.shard.Owns (R.Gives n.addr)
  held : ∀ mu ∈ n.held, mu.For R n.addr
  arena : n.engine.Holds fun v => R.Gives n.addr (Vertex.key v)
  inbox : ∀ f ∈ n.inbox.toList, ∀ msg, Message.decode f = .ok msg → msg.InFlight R n.addr

/-- No frame waiting in an agent's inbox changes membership. -/
def Node.Steady (n : Node) : Prop :=
  ∀ f ∈ n.inbox.toList, ∀ msg, Message.decode f = .ok msg → msg.changesMembership = false

namespace Mesh

/-- The agents' addresses, in the order they were created. -/
def addrs (m : Mesh) : List Address := m.nodes.toList.map Node.addr

/-- No frame waiting at any agent changes membership. -/
def Steady (m : Mesh) : Prop := ∀ n ∈ m.nodes, n.Steady

/-- Every agent holds only what the ring `R` gives it. -/
def Owned (R : Ring) (m : Mesh) : Prop := ∀ n ∈ m.nodes, n.Owns R

/-- Every agent draws its keys from the seed `σ` gives its address. -/
def Seeded (σ : Address → UInt64) (m : Mesh) : Prop := ∀ n ∈ m.nodes, n.shard.keys.seed = σ n.addr

/-- No agent has drawn more keys than `B` allows at its address. -/
def DrawsWithin (B : Address → Nat) (m : Mesh) : Prop :=
  ∀ n ∈ m.nodes, n.shard.keys.drawn ≤ B n.addr

end Mesh

/-- None of the first `B a` keys drawn from the seed `σ a` is the unassigned key. -/
def CleanDraws (σ : Address → UInt64) (B : Address → Nat) : Prop :=
  ∀ a j, j < B a → KeySource.keyAt (σ a) j ≠ Key.unassigned

/-- What stays fixed while a mesh runs: the ring every agent routes by, the agents' addresses,
the seeds their key sources draw from, and how many keys each may draw. -/
structure Setting where
  ring : Ring
  agents : List Address
  seed : Address → UInt64
  bound : Address → Nat

namespace Setting

/-- A setting a run can keep to: no address twice, and no draw within the bounds is the
unassigned key. -/
structure Sound (S : Setting) : Prop where
  nodup : S.agents.Nodup
  clean : CleanDraws S.seed S.bound

/-- The ownership assertion: the agents are those of the setting and draw from its seeds, no
frame waiting anywhere changes membership, and unless some agent has drawn past its bound, every
agent holds only what the ring gives it and the fact holds. -/
def owning (S : Setting) : Assertion Mesh where
  holds P m := m.addrs = S.agents ∧ m.Seeded S.seed ∧ m.Steady ∧
    (¬ m.DrawsWithin S.bound ∨ (m.Owned S.ring ∧ P))
  weaken h hm := ⟨hm.1, hm.2.1, hm.2.2.1, hm.2.2.2.imp_right fun h' => ⟨h'.1, h h'.2⟩⟩

end Setting

theorem Node.Owns.with_shard {R : Ring} {n : Node} (h : n.Owns R) {s : Shard}
    (hs : s.Owns (R.Gives n.addr)) : ({ n with shard := s } : Node).Owns R :=
  ⟨h.ring, hs, h.held, h.arena, h.inbox⟩

namespace Mesh

theorem mem_update {m : Mesh} {a : Address} {f : Node → Node} {n' : Node}
    (h : n' ∈ (m.update a f).nodes) :
    ∃ n ∈ m.nodes, (n.addr = a ∧ n' = f n) ∨ (n.addr ≠ a ∧ n' = n) := by
  obtain ⟨n, hn, rfl⟩ := Array.mem_map.mp h
  by_cases ha : n.addr = a
  · exact ⟨n, hn, .inl ⟨ha, by simp [ha]⟩⟩
  · exact ⟨n, hn, .inr ⟨ha, by simp [ha]⟩⟩

theorem update_mem {m : Mesh} {a : Address} (f : Node → Node) {n : Node} (hn : n ∈ m.nodes) :
    (if n.addr = a then f n else n) ∈ (m.update a f).nodes := by
  refine Array.mem_map.mpr ⟨n, hn, ?_⟩
  by_cases ha : n.addr = a <;> simp [ha]

theorem addrs_update {m : Mesh} {a : Address} {f : Node → Node}
    (haddr : ∀ n, n.addr = a → (f n).addr = a) : (m.update a f).addrs = m.addrs := by
  simp only [addrs, update, Array.toList_map, List.map_map]
  refine List.map_congr_left fun n _ => ?_
  by_cases ha : n.addr = a <;> simp [ha, haddr]

/-- The agent bound at an address that is one of the agents'. -/
theorem find?_of_mem_addrs {m : Mesh} {a : Address} (h : a ∈ m.addrs) :
    ∃ n ∈ m.nodes, n.addr = a ∧ m.find? a = some n := by
  cases hf : m.find? a with
  | none =>
    obtain ⟨n, hn, rfl⟩ := List.mem_map.mp h
    exact absurd (Array.find?_eq_none.mp hf n (Array.mem_toList_iff.mp hn)) (by simp)
  | some n =>
    have hn := Array.find?_some hf
    exact ⟨n, Array.mem_of_find?_eq_some hf, by simpa using hn, rfl⟩

/-- With no address twice, the agent bound at an address is the only one there. -/
theorem eq_of_addr_eq {m : Mesh} (hnodup : m.addrs.Nodup) {n n' : Node} (hn : n ∈ m.nodes)
    (hn' : n' ∈ m.nodes) (h : n.addr = n'.addr) : n = n' :=
  List.inj_on_of_nodup_map hnodup (Array.mem_toList_iff.mpr hn) (Array.mem_toList_iff.mpr hn') h

/-- With no address twice, the agent bound at an agent's address is that agent. -/
theorem find?_addr {m : Mesh} (hnodup : m.addrs.Nodup) {n : Node} (hn : n ∈ m.nodes) :
    m.find? n.addr = some n := by
  obtain ⟨n', hn', ha, hfind⟩ := find?_of_mem_addrs
    (List.mem_map.mpr ⟨n, Array.mem_toList_iff.mpr hn, rfl⟩ : n.addr ∈ m.addrs)
  rw [hfind, eq_of_addr_eq hnodup hn' hn ha]

end Mesh

namespace Message

/-- A frame written for a message that changes no membership decodes, if at all, to one. -/
theorem steady_decode {msg msg' : Message} (h : msg.changesMembership = false)
    (hd : Message.decode msg.encode = .ok msg') : msg'.changesMembership = false := by
  rw [changesMembership_eq, typeByte_of_decode_encode hd, ← changesMembership_eq]
  exact h

/-- A frame written for a message that may be handed to `X` decodes, if at all, to one. -/
theorem Admissible.decode {R : Ring} {X : Address} {msg msg' : Message} (h : msg.Admissible R X)
    (hd : Message.decode msg.encode = .ok msg') : msg'.Admissible R X := by
  have ht := typeByte_of_decode_encode hd
  refine ⟨steady_decode h.steady hd, ?_⟩
  · -- a vertex frame decodes to a prefix of its vertices
    intro a' vs' hm' v hv
    obtain ⟨a, vs, rfl⟩ := eq_algVertices_of_typeByte (by rw [← ht, hm']; rfl)
    obtain ⟨k, hm''⟩ := decode_algVertices hd
    rw [hm', algVertices.injEq] at hm''
    rw [hm''.2] at hv
    exact h.vertices a vs rfl v (List.mem_of_mem_take hv)

/-- A frame written for a message pushed to `X` decodes, if at all, to a message pushed to `X`. -/
theorem InFlight.decode {R : Ring} {X : Address} {msg msg' : Message} (h : msg.InFlight R X)
    (hd : Message.decode msg.encode = .ok msg') : msg'.InFlight R X := by
  refine ⟨h.toAdmissible.decode hd, ?_⟩
  -- a write frame decodes to a write of the same kind under the same key
  have ht := typeByte_of_decode_encode hd
  intro mu' hmu'
  have hsome : msg.mutation?.isSome := by
    rw [isSome_mutation?_eq, ← ht, ← isSome_mutation?_eq, hmu']
    rfl
  obtain ⟨mu, hmu⟩ := Option.isSome_iff_exists.mp hsome
  have hfor := h.write mu hmu
  obtain rfl := eq_toMessage_of_mutation? hmu
  obtain ⟨mu'', hm', hkey, -⟩ := decode_mutation hd
  rw [hm', mutation?_toMessage] at hmu'
  cases hmu'
  refine ⟨hkey ▸ hfor.owner, (Mutation.keyed_iff _).mpr fun e he => ?_⟩
  obtain ⟨e0, he0⟩ := eq_addEntry_of_typeByte (m := mu.toMessage) (by
    rw [← ht, hm', he]
    rfl)
  have hmu0 : mu = .addEntry e0 := by
    cases mu <;> simp_all [Mutation.toMessage]
  rw [hkey]
  exact (Mutation.keyed_iff mu).mp hfor.keyed e0 hmu0

/-- A frame written for a control message decodes, if at all, to a control message. -/
theorem Control.decode {msg msg' : Message} (h : msg.Control)
    (hd : Message.decode msg.encode = .ok msg') : msg'.Control := by
  have ht := typeByte_of_decode_encode hd
  refine ⟨steady_decode h.steady hd, ?_, fun a vs hm => ?_⟩
  · rw [← Option.not_isSome_iff_eq_none, isSome_mutation?_eq, ht, ← isSome_mutation?_eq,
      h.noWrite]
    exact Bool.false_ne_true
  · obtain ⟨a', vs', hm'⟩ := eq_algVertices_of_typeByte (m := msg) (by rw [← ht, hm]; rfl)
    exact h.noVertices a' vs' hm'

end Message

theorem Node.Steady.push {n : Node} (h : n.Steady) {msg : Message}
    (hmsg : msg.changesMembership = false) :
    ({ n with inbox := n.inbox.push msg.encode } : Node).Steady := by
  intro f hf msg' hd
  rw [Inbox.toList_push] at hf
  rcases List.mem_append.mp hf with hf | hf
  · exact h f hf msg' hd
  · rw [List.mem_singleton.mp hf] at hd
    exact Message.steady_decode hmsg hd

namespace Setting

variable {S : Setting}

/-- Changing the agents at one address, keeping the address and the seed and drawing no fewer
keys, keeps the ownership assertion when the changed agents, within the bounds, still hold only
what the ring gives them. -/
theorem holds_update {F F' : Prop} {m : Mesh} {a : Address} {f : Node → Node}
    (hm : S.owning.holds F m) (haddr : ∀ n, n.addr = a → (f n).addr = a)
    (hkeys : ∀ n ∈ m.nodes, n.addr = a →
      (f n).shard.keys.seed = n.shard.keys.seed ∧ n.shard.keys.drawn ≤ (f n).shard.keys.drawn)
    (hsteady : ∀ n ∈ m.nodes, n.addr = a → n.Steady → (f n).Steady)
    (hown : m.DrawsWithin S.bound → (m.update a f).DrawsWithin S.bound → m.Owned S.ring → F →
      (∀ n ∈ m.nodes, n.addr = a → (f n).Owns S.ring) ∧ F') :
    S.owning.holds F' (m.update a f) := by
  obtain ⟨haddrs, hseed, hst, hw⟩ := hm
  refine ⟨(Mesh.addrs_update haddr).trans haddrs, ?_, ?_, ?_⟩
  · intro n' hn'
    obtain ⟨n, hn, ⟨ha, hn'eq⟩ | ⟨_, hn'eq⟩⟩ := Mesh.mem_update hn'
    · rw [hn'eq, (hkeys n hn ha).1, haddr n ha, ← ha]
      exact hseed n hn
    · exact hn'eq ▸ hseed n hn
  · intro n' hn'
    obtain ⟨n, hn, ⟨ha, hn'eq⟩ | ⟨_, hn'eq⟩⟩ := Mesh.mem_update hn'
    · exact hn'eq ▸ hsteady n hn ha (hst n hn)
    · exact hn'eq ▸ hst n hn
  · by_cases hw' : (m.update a f).DrawsWithin S.bound
    · -- no agent drew fewer keys, so the mesh before was within the bounds too
      have hwm : m.DrawsWithin S.bound := by
        intro n hn
        have hb := hw' _ (Mesh.update_mem f hn)
        by_cases ha : n.addr = a
        · rw [if_pos ha, haddr n ha, ← ha] at hb
          exact Nat.le_trans (hkeys n hn ha).2 hb
        · rwa [if_neg ha] at hb
      obtain ⟨hO, hF⟩ := hw.resolve_left (not_not.mpr hwm)
      obtain ⟨hf, hF'⟩ := hown hwm hw' hO hF
      refine .inr ⟨fun n' hn' => ?_, hF'⟩
      obtain ⟨n, hn, ⟨ha, hn'eq⟩ | ⟨_, hn'eq⟩⟩ := Mesh.mem_update hn'
      · exact hn'eq ▸ hf n hn ha
      · exact hn'eq ▸ hO n hn
    · exact .inl hw'

/-- A change that leaves the mesh as it is keeps the assertion, with what the old facts give
within the bounds. -/
theorem holds_of {F F' : Prop} {m : Mesh} (hm : S.owning.holds F m)
    (h : m.DrawsWithin S.bound → m.Owned S.ring → F → F') : S.owning.holds F' m := by
  refine ⟨hm.1, hm.2.1, hm.2.2.1, ?_⟩
  by_cases hw : m.DrawsWithin S.bound
  · obtain ⟨hO, hF⟩ := hm.2.2.2.resolve_left (not_not.mpr hw)
    exact .inr ⟨hO, h hw hO hF⟩
  · exact .inl hw

variable {P : Prop}

/-- Reading an agent of the setting gives the agent at that address, holding only what the ring
gives it. -/
theorem keeps_nodeOf {me : Address} (hme : P → me ∈ S.agents) :
    S.owning.Keeps P (Mesh.nodeOf me) (fun n => P ∧ n.addr = me ∧ n.Owns S.ring) := by
  intro F m hm
  show S.owning.Ends F _ (.ok ((m.find? me).getD default) m)
  refine holds_of hm fun _ hO ⟨hF, hP⟩ => ⟨hF, hP, ?_⟩
  obtain ⟨n, hn, ha, hfind⟩ := Mesh.find?_of_mem_addrs (hm.1 ▸ hme hP)
  rw [hfind]
  exact ⟨ha, hO n hn⟩

theorem send_run (dest : Address) (msg : Message) (m : Mesh) :
    Mesh.send dest msg m = match m.push dest msg.encode with
      | .ok m' => .ok () m'
      | .error e => .error e m := by
  change (Mesh.lift (m.push dest msg.encode) >>= set) m = _
  cases m.push dest msg.encode <;> rfl

/-- Giving an entry its key at an agent of the setting: a keyed entry keeps its key, and within
the bounds a drawn key is never the unassigned key. -/
theorem keeps_assignKey (hclean : CleanDraws S.seed S.bound) (hnodup : S.agents.Nodup)
    {me : Address} (hme : P → me ∈ S.agents) {e : Entry} :
    S.owning.Keeps P (Mesh.onShard me (Shard.assignKey e))
      (fun e' => P ∧ e'.key ≠ Key.unassigned ∧ (e.key ≠ Key.unassigned → e' = e)) := by
  intro F m hm
  show S.owning.Ends F _ (Mesh.onShard me (Shard.assignKey e) m)
  unfold Mesh.onShard
  have hnodup' : m.addrs.Nodup := hm.1 ▸ hnodup
  cases hf : m.find? me with
  | none =>
    -- within the bounds the agent is there, so this is outside them
    have hno : ∀ n ∈ m.nodes, n.addr ≠ me := fun n hn ha => by
      simpa [ha] using Array.find?_eq_none.mp hf n hn
    have hout : ¬ m.DrawsWithin S.bound := fun hw => by
      obtain ⟨-, -, hP⟩ := hm.2.2.2.resolve_left (not_not.mpr hw)
      obtain ⟨n, hn, ha, -⟩ := Mesh.find?_of_mem_addrs (hm.1 ▸ hme hP)
      exact hno n hn ha
    dsimp only [Option.getD_none]
    cases Shard.assignKey e (default : Node).shard with
    | ok e' s =>
      exact holds_update hm (fun _ ha => ha) (fun n hn ha => absurd ha (hno n hn))
        (fun _ _ _ h => h) fun hw _ _ _ => absurd hw hout
    | error x s =>
      exact holds_update hm (fun _ ha => ha) (fun n hn ha => absurd ha (hno n hn))
        (fun _ _ _ h => h) fun hw _ _ _ => absurd hw hout
  | some n0 =>
    have hn0 : n0 ∈ m.nodes ∧ n0.addr = me :=
      ⟨Array.mem_of_find?_eq_some hf, by simpa using Array.find?_some hf⟩
    dsimp only [Option.getD_some]
    have hsame : ∀ n ∈ m.nodes, n.addr = me → n = n0 := fun n hn ha =>
      Mesh.eq_of_addr_eq hnodup' hn hn0.1 (ha.trans hn0.2.symm)
    by_cases he : e.key = Key.unassigned
    · -- a key is drawn: the next one of the agent's source, clean within the bounds
      rw [Shard.assignKey_unassigned he]
      refine holds_update hm (fun _ ha => ha) (fun n hn ha => by
        obtain rfl := hsame n hn ha
        exact ⟨rfl, Nat.le_succ _⟩) (fun _ _ _ h => h)
        fun _ hw' hO ⟨hF, hP⟩ => ⟨fun n hn ha => ?_, hF, hP, ?_⟩
      · obtain rfl := hsame n hn ha
        have h := (hO n hn).shard
        exact (hO n hn).with_shard ⟨h.store, h.staged, h.waiters⟩
      · have hb := hw' _ (Mesh.update_mem _ hn0.1)
        rw [if_pos hn0.2] at hb
        have hseed : n0.shard.keys.seed = S.seed me := hn0.2 ▸ hm.2.1 n0 hn0.1
        have hlt : n0.shard.keys.drawn < S.bound me := by
          simp only [Node.addr] at hb hn0
          rw [hn0.2] at hb
          exact hb
        refine ⟨?_, fun h => absurd he h⟩
        show KeySource.keyAt n0.shard.keys.seed n0.shard.keys.drawn ≠ Key.unassigned
        rw [hseed]
        exact hclean me _ hlt
    · rw [Shard.assignKey_keyed he]
      exact holds_update hm (fun _ ha => ha) (fun n hn ha => by
        obtain rfl := hsame n hn ha
        exact ⟨rfl, Nat.le_refl _⟩) (fun _ _ _ h => h) fun _ _ hO ⟨hF, hP⟩ =>
        ⟨fun n hn ha => (hO n hn).with_shard (hsame n hn ha ▸ (hO n hn).shard), hF, hP, he,
          fun _ => rfl⟩

/-! ### Reading the mesh -/

/-- A mesh read whole has the setting's agents. -/
theorem keeps_get_bind {α : Type} {f : Mesh → MeshM α} {Q : α → Prop}
    (h : ∀ m, m.addrs = S.agents → S.owning.Keeps P (f m) Q) : S.owning.Keeps P (get >>= f) Q :=
  fun F m hm => h m hm.1 F m hm

end Setting

end ShardStore
