import ShardStore.Mesh.Member
import ShardStore.Proofs.Wire.Frames
/-!
What a participant learns from a membership message.

A participant only ever learns agents, never forgets one. Taking a message, it ends knowing
exactly the agents it knew and those the message teaches (`Message.taught`): the peers of a
handshake or heartbeat, or the agent an add names. It keeps what it knows ascending and its ring
the one built from what it knows, and it leaves its heartbeat counter as it was or rearms it,
rearming it whenever it learned an agent (`Member.Learns`). Everything it sends in answer
teaches only agents it knows.

A heartbeat spends a unit of the counter and sends every other agent it knows its whole view;
with the counter spent, it does nothing.
-/

namespace ShardStore

namespace Message

/-- The agents a message teaches whoever takes it: the peers of a handshake or a heartbeat, and
the agent an add names. -/
def taught : Message → List Address
  | handshake peers | heartbeat peers => peers
  | addNeighbor a => [a]
  | _ => []

end Message

namespace Address

theorem mem_foldl_insertSorted {x : Address} :
    ∀ {l acc : List Address},
      x ∈ l.foldl (fun acc p => Address.insertSorted p acc) acc ↔ x ∈ acc ∨ x ∈ l
  | [], _ => by simp
  | p :: ps, acc => by
    rw [List.foldl_cons, mem_foldl_insertSorted, Address.mem_insertSorted, List.mem_cons]
    grind

theorem pairwise_foldl_insertSorted :
    ∀ {l acc : List Address}, acc.Pairwise (Address.compare · · = .lt) →
      (l.foldl (fun acc p => Address.insertSorted p acc) acc).Pairwise
        (Address.compare · · = .lt)
  | [], _, h => h
  | _ :: _, _, h => by
    rw [List.foldl_cons]
    exact pairwise_foldl_insertSorted (Address.pairwise_insertSorted h)

/-- Two ascending lists of the same addresses are one list. -/
theorem eq_of_ascending {l l' : List Address} (h : l.Pairwise (Address.compare · · = .lt))
    (h' : l'.Pairwise (Address.compare · · = .lt)) (hmem : ∀ x, x ∈ l ↔ x ∈ l') : l = l' := by
  have hnodup : ∀ {k : List Address}, k.Pairwise (Address.compare · · = .lt) → k.Nodup := by
    intro k hk
    refine hk.imp fun {x y} (hlt : Address.compare x y = .lt) (heq : x = y) => ?_
    subst heq
    exact compare_self_ne_lt x hlt
  refine List.Perm.eq_of_pairwise (fun x y _ _ hxy hyx => ?_) h h'
    ((List.perm_ext_iff_of_nodup (hnodup h) (hnodup h')).mpr hmem)
  rw [compare_eq_lt_iff] at hxy hyx
  omega

end Address

namespace Member

/-- What a participant does with a message of the membership protocol or a size report, as an
agent's handler does: its new state and the messages it sends, in order. Any other message
leaves its membership as it is. -/
def receive (m : Member) : Message → Member × List Post
  | .handshake peers => m.onHandshake peers
  | .heartbeat peers => (m.onHeartbeat peers, [])
  | .wantHeartbeat sender => m.onWantHeartbeat sender
  | .addNeighbor a => m.onAddNeighbor a
  | .stats a size => (m.recordStats a size.toNat, [])
  | _ => (m, [])

/-- `m'` is `m` having learned the agents `T`: the same participant, knowing exactly what `m`
knew and `T`, still ascending, with its ring still the one built from what it knows, and with
the counter of `m` unless it was rearmed; it is rearmed whenever `m'` knows more. -/
structure Learns (m m' : Member) (T : List Address) : Prop where
  addr : m'.addr = m.addr
  isAgent : m'.isAgent = m.isAgent
  hbRounds : m'.hbRounds = m.hbRounds
  mem_agents : ∀ x, x ∈ m'.agents ↔ x ∈ m.agents ∨ x ∈ T
  ascending : m.agents.Pairwise (Address.compare · · = .lt) →
    m'.agents.Pairwise (Address.compare · · = .lt)
  ring : ∀ R : Ring, m.ring = R.build m.agents → m'.ring = R.build m'.agents
  counter : (m'.agents = m.agents ∧ m'.hbCtr = m.hbCtr) ∨ m'.hbCtr = m.hbRounds

variable {m : Member}

theorem Learns.sub {m' : Member} {T : List Address} (h : m.Learns m' T) {x : Address}
    (hx : x ∈ m.agents) : x ∈ m'.agents :=
  (h.mem_agents x).mpr (.inl hx)

theorem Learns.taught {m' : Member} {T : List Address} (h : m.Learns m' T) {x : Address}
    (hx : x ∈ T) : x ∈ m'.agents :=
  (h.mem_agents x).mpr (.inr hx)

/-- A participant that already knows `T` learns it by staying as it is. -/
theorem learns_self {T : List Address} (hT : ∀ x ∈ T, x ∈ m.agents) : m.Learns m T :=
  ⟨rfl, rfl, rfl, fun x => ⟨.inl, fun h => h.elim id (hT x)⟩, id, fun _ h => h, .inl ⟨rfl, rfl⟩⟩

/-- Taking a new list of agents is learning what it adds, with the counter rearmed. -/
theorem learns_withAgents {L T : List Address} (hmem : ∀ x, x ∈ L ↔ x ∈ m.agents ∨ x ∈ T)
    (hasc : m.agents.Pairwise (Address.compare · · = .lt) →
      L.Pairwise (Address.compare · · = .lt)) :
    m.Learns (m.withAgents L) T where
  addr := rfl
  isAgent := rfl
  hbRounds := rfl
  mem_agents := hmem
  ascending := hasc
  ring := fun R hR => by
    show m.ring.build L = R.build L
    rw [hR]
    rfl
  counter := .inr rfl

theorem learns_mergePeers (peers : List Address) : m.Learns (m.mergePeers peers).2 peers := by
  unfold mergePeers
  by_cases hfresh : (m.unknown peers).isEmpty
  · -- every peer is known already
    rw [if_pos hfresh]
    refine learns_self fun x hx => ?_
    have hnot : x ∉ m.unknown peers := by
      rw [List.isEmpty_iff.mp hfresh]
      exact List.not_mem_nil
    simpa [unknown, hx] using hnot
  · rw [if_neg hfresh]
    refine learns_withAgents (fun x => ?_) Address.pairwise_foldl_insertSorted
    rw [Address.mem_foldl_insertSorted]
    by_cases hx : x ∈ m.agents <;> simp [unknown, hx]

theorem learns_addNeighbor (peer : Address) (notify : Bool) :
    m.Learns (m.addNeighbor peer notify).2.1 [peer] := by
  unfold addNeighbor
  by_cases hk : m.agents.contains peer = true
  · rw [if_pos hk]
    refine learns_self fun x hx => ?_
    rw [List.mem_singleton.mp hx]
    exact List.contains_iff_mem.mp hk
  · rw [if_neg hk]
    refine learns_withAgents (fun x => ?_) Address.pairwise_insertSorted
    rw [Address.mem_insertSorted, List.mem_singleton]
    exact or_comm

theorem onHandshake_eq (peers : List Address) : m.onHandshake peers =
    ((m.mergePeers peers).2,
      if !(m.mergePeers peers).1 || !(m.mergePeers peers).2.isAgent then []
      else ((m.unknown peers).filter (· != (m.mergePeers peers).2.addr)).map fun p =>
        (p, .handshake (m.mergePeers peers).2.agents)) := by
  unfold onHandshake
  rcases m.mergePeers peers with ⟨merged, m'⟩
  by_cases h : (!merged || !m'.isAgent) = true <;> simp [h]

/-- Adding an agent sends, if anything, the new view. -/
theorem addNeighbor_posts (peer : Address) (notify : Bool) :
    ∀ p ∈ (m.addNeighbor peer notify).2.2,
      p.2 = .handshake (m.addNeighbor peer notify).2.1.agents := by
  unfold addNeighbor
  split
  · simp
  · intro p hp
    dsimp only at hp ⊢
    split at hp
    · rw [List.mem_singleton.mp hp]
    · simp at hp

theorem join_eq (seed : Address) :
    m.join seed = ((m.addNeighbor seed true).2.1, (m.addNeighbor seed true).2.2) := by
  unfold join
  rcases m.addNeighbor seed true with ⟨new, m', posts⟩
  rfl

/-- A request for the view rearms the counter and teaches nothing. -/
theorem learns_rearm : m.Learns { m with hbCtr := m.hbRounds } [] :=
  ⟨rfl, rfl, rfl, fun x => by simp, id, fun _ h => h, .inr rfl⟩

/-- Taking a message of the protocol is learning what it teaches. -/
theorem learns_receive (msg : Message) : m.Learns (m.receive msg).1 msg.taught := by
  cases msg with
  | handshake peers =>
    show m.Learns (m.onHandshake peers).1 peers
    rw [onHandshake_eq]
    exact learns_mergePeers peers
  | heartbeat peers => exact learns_mergePeers peers
  | wantHeartbeat sender => exact learns_rearm
  | addNeighbor a =>
    show m.Learns (m.onAddNeighbor a).1 [a]
    exact learns_addNeighbor a m.isAgent
  | stats a size => exact ⟨rfl, rfl, rfl, fun x => by simp [receive, recordStats, Message.taught],
      id, fun _ h => h, .inl ⟨rfl, rfl⟩⟩
  | _ => exact learns_self fun x hx => by simp [Message.taught] at hx

/-- Everything a participant sends in answer to a message teaches only agents it then knows. -/
theorem taught_receive (msg : Message) :
    ∀ p ∈ (m.receive msg).2, ∀ x ∈ p.2.taught, x ∈ (m.receive msg).1.agents := by
  cases msg with
  | handshake peers =>
    show ∀ p ∈ (m.onHandshake peers).2, ∀ x ∈ p.2.taught, x ∈ (m.onHandshake peers).1.agents
    rw [onHandshake_eq]
    split
    · simp
    · intro p hp x hx
      obtain ⟨q, -, rfl⟩ := List.mem_map.mp hp
      exact hx
  | heartbeat peers => simp [receive]
  | wantHeartbeat sender => simp [receive, onWantHeartbeat, Message.taught]
  | addNeighbor a =>
    show ∀ p ∈ (m.onAddNeighbor a).2, ∀ x ∈ p.2.taught, x ∈ (m.onAddNeighbor a).1.agents
    intro p hp x hx
    have hposts := addNeighbor_posts (m := m) a m.isAgent
    simp only [onAddNeighbor] at hp ⊢
    -- an observer also asks for the view, which teaches nothing
    split at hp
    · rw [hposts p hp] at hx
      exact hx
    · rcases List.mem_append.mp hp with hp | hp
      · rw [hposts p hp] at hx
        exact hx
      · simp [requestMesh] at hp
        simp [hp, Message.taught] at hx
  | stats a size => simp [receive]
  | _ => simp [receive]

/-! ### Heartbeats -/

theorem heartbeat_spent {size : Nat} (h : m.hbCtr = 0) : m.heartbeat size = (false, m, []) := by
  simp [heartbeat, h]

theorem heartbeat_state {size : Nat} (h : m.hbCtr ≠ 0) :
    (m.heartbeat size).2.1 = { m with hbCtr := m.hbCtr - 1 } := by
  simp [heartbeat, h]

/-- A heartbeat sends every other agent known the whole view. -/
theorem heartbeat_reaches {size : Nat} (h : m.hbCtr ≠ 0) {q : Address} (hq : q ∈ m.agents)
    (hne : q ≠ m.addr) : (q, .heartbeat m.agents) ∈ (m.heartbeat size).2.2 := by
  simp only [heartbeat, h, if_false, List.mem_flatMap, List.mem_filter, List.mem_cons]
  exact ⟨q, ⟨hq, by simpa using hne⟩, .inl rfl⟩

/-- A heartbeat teaches only agents known. -/
theorem taught_heartbeat (size : Nat) :
    ∀ p ∈ (m.heartbeat size).2.2, ∀ x ∈ p.2.taught, x ∈ m.agents := by
  by_cases h : m.hbCtr = 0
  · simp [heartbeat_spent h]
  · simp only [heartbeat, h, if_false, List.mem_flatMap, List.mem_filter, List.mem_cons,
      List.not_mem_nil, or_false]
    rintro p ⟨q, -, rfl | rfl⟩ x hx
    · exact hx
    · simp [Message.taught] at hx

end Member

end ShardStore
