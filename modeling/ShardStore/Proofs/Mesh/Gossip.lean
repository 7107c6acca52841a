import ShardStore.Proofs.Mesh.Learning
import Mathlib.Data.List.Sort
/-!
Membership converges.

Membership as the agents of a mesh see it: each agent is a participant with the messages waiting
for it, oldest first (`Gossip.Peer`). A run takes steps: an agent takes the oldest message
waiting for it and sends what its participant answers, an agent's heartbeat fires, a message of
the protocol comes from outside naming only running agents, or a new agent joins through a
running one. Messages go to the inbox of the agent at their address and are lost if there is
none.

The invariant `Gossip.Inv` holds along every run. Its heart is `covered`: when an agent `p`
knows another agent `q`, either `p`'s heartbeat counter is not spent, or `q` already knows all
`p` knows, or a message waiting for `q` teaches it all that. Learning rearms the counter, and
the heartbeat that spends it sends the whole view to every agent known, so the three cases keep
each other going. When no membership message is in flight and every counter is spent, knowing
an agent means knowing what it knows, and it knows us back; each agent but the first knows one
that came before it, so all agents know the same agents, namely all of them, and have the same
ring.
-/

namespace ShardStore

namespace Gossip

/-- An agent as membership sees it: its participant and the messages waiting for it, oldest
first. -/
structure Peer where
  member : Member
  queue : List Message

/-- The addresses of the agents. -/
def addrs (net : List Peer) : List Address := net.map (·.member.addr)

/-- Change the agent at an address. -/
def update (net : List Peer) (a : Address) (f : Peer → Peer) : List Peer :=
  net.map fun p => if p.member.addr == a then f p else p

/-- Push a message to the agent at an address; sent where no agent is, it is lost. -/
def post (net : List Peer) (p : Post) : List Peer :=
  update net p.1 fun q => { q with queue := q.queue ++ [p.2] }

/-- Push messages in order. -/
def postAll (net : List Peer) (ps : List Post) : List Peer := ps.foldl post net

/-- The agent at `a` takes the oldest message waiting for it and sends what its participant
answers. -/
def deliver (net : List Peer) (a : Address) : List Peer :=
  match net.find? (·.member.addr == a) with
  | some ⟨m, msg :: rest⟩ =>
    postAll (update net a fun _ => ⟨(m.receive msg).1, rest⟩) (m.receive msg).2
  | _ => net

/-- A heartbeat of the agent at `a`, reporting a store size. -/
def tick (net : List Peer) (a : Address) (size : Nat) : List Peer :=
  match net.find? (·.member.addr == a) with
  | some p =>
    postAll (update net a fun q => { q with member := (p.member.heartbeat size).2.1 })
      (p.member.heartbeat size).2.2
  | none => net

/-- A new participant joins through a seed: it comes in knowing the seed and sends it its view. -/
def join (net : List Peer) (m : Member) (seed : Address) : List Peer :=
  postAll (net ++ [⟨(m.join seed).1, []⟩]) (m.join seed).2

/-- The agents as they start: one agent that knows only itself. -/
def start (v : UInt16) (a : Address) (r : Nat) : List Peer := [⟨Member.agent a v r, []⟩]

/-- The steps of a run, with `v` virtual nodes per agent. A message from outside is one of the
membership protocol that names only running agents; an agent joins under a new address,
through a running agent, with a positive number of gossip rounds. -/
inductive Step (v : UInt16) : List Peer → List Peer → Prop
  | deliver (net : List Peer) (a : Address) : Step v net (deliver net a)
  | tick (net : List Peer) (a : Address) (size : Nat) : Step v net (tick net a size)
  | send (net : List Peer) (a : Address) (msg : Message) (hm : msg.changesMembership = true)
      (ht : ∀ x ∈ msg.taught, x ∈ addrs net) : Step v net (post net (a, msg))
  | join (net : List Peer) (a seed : Address) (r : Nat) (hr : 0 < r) (ha : a ∉ addrs net)
      (hs : seed ∈ addrs net) : Step v net (join net (Member.agent a v r) seed)

/-! ### Steps as maps over the agents -/

/-- The messages of a list sent to an address, in order. -/
def sentTo (ps : List Post) (a : Address) : List Message :=
  (ps.filter fun p => p.1 = a).map (·.2)

theorem sentTo_cons (p : Post) (ps : List Post) (a : Address) :
    sentTo (p :: ps) a = (if p.1 = a then [p.2] else []) ++ sentTo ps a := by
  by_cases h : p.1 = a <;> simp [sentTo, h]

theorem mem_sentTo {ps : List Post} {a : Address} {msg : Message} :
    msg ∈ sentTo ps a ↔ (a, msg) ∈ ps := by
  simp only [sentTo, List.mem_map, List.mem_filter, decide_eq_true_eq]
  constructor
  · rintro ⟨p, ⟨hp, rfl⟩, rfl⟩
    exact hp
  · exact fun h => ⟨_, ⟨h, rfl⟩, rfl⟩

/-- Pushing messages appends to each agent's inbox those sent to its address. -/
theorem postAll_eq : ∀ (net : List Peer) (ps : List Post),
    postAll net ps = net.map fun q => { q with queue := q.queue ++ sentTo ps q.member.addr }
  | net, [] => by simp [postAll, sentTo]
  | net, p :: ps => by
    show postAll (post net p) ps = _
    rw [postAll_eq, post, update, List.map_map]
    refine List.map_congr_left fun q _ => ?_
    by_cases h : q.member.addr = p.1
    · simp [h, sentTo_cons]
    · simp [h, sentTo_cons, Ne.symm h]

theorem addrs_map {g : Peer → Peer} (hg : ∀ p, (g p).member.addr = p.member.addr)
    (net : List Peer) : addrs (net.map g) = addrs net := by
  simp [addrs, hg]

/-- With no address twice, the agent found at an address is the only one there. -/
theorem eq_of_find? {net : List Peer} (hnd : (addrs net).Nodup) {a : Address} {p q : Peer}
    (hp : net.find? (·.member.addr == a) = some p) (hq : q ∈ net) (ha : q.member.addr = a) :
    q = p := by
  have hpa : p.member.addr = a := by simpa using List.find?_some hp
  exact List.inj_on_of_nodup_map hnd hq (List.mem_of_find?_eq_some hp) (ha.trans hpa.symm)

/-- An agent delivering a message: it becomes what its participant answers with the rest of its
inbox, and everyone gets what was sent to it. -/
theorem deliver_eq {net : List Peer} {a : Address} {m : Member}
    {msg : Message} {rest : List Message}
    (hp : net.find? (·.member.addr == a) = some ⟨m, msg :: rest⟩) :
    deliver net a = net.map fun q =>
      if q.member.addr = a then ⟨(m.receive msg).1, rest ++ sentTo (m.receive msg).2 a⟩
      else { q with queue := q.queue ++ sentTo (m.receive msg).2 q.member.addr } := by
  rw [deliver, hp]
  dsimp only
  rw [postAll_eq, update, List.map_map]
  refine List.map_congr_left fun q _ => ?_
  by_cases h : q.member.addr = a
  · have haddr : (m.receive msg).1.addr = a := by
      rw [(Member.learns_receive msg).addr]
      simpa using List.find?_some hp
    simp [h, haddr]
  · simp [h]

theorem tick_eq {net : List Peer} {a : Address} {p : Peer}
    (hp : net.find? (·.member.addr == a) = some p) (size : Nat) :
    tick net a size = net.map fun q =>
      if q.member.addr = a then
        ⟨(p.member.heartbeat size).2.1, q.queue ++ sentTo (p.member.heartbeat size).2.2 a⟩
      else { q with queue := q.queue ++ sentTo (p.member.heartbeat size).2.2 q.member.addr } := by
  rw [tick, hp]
  dsimp only
  rw [postAll_eq, update, List.map_map]
  refine List.map_congr_left fun q _ => ?_
  by_cases h : q.member.addr = a
  · have haddr : (p.member.heartbeat size).2.1.addr = a := by
      have hpa : p.member.addr = a := by simpa using List.find?_some hp
      by_cases hc : p.member.hbCtr = 0
      · rw [Member.heartbeat_spent hc]
        exact hpa
      · rw [Member.heartbeat_state hc]
        exact hpa
    simp [h, haddr]
  · simp [h]

theorem post_eq (net : List Peer) (p : Post) :
    post net p = net.map fun q => { q with queue := q.queue ++ sentTo [p] q.member.addr } :=
  postAll_eq net [p]

/-! ### The invariant -/

/-- The agent `q` knows all of `A`, or a message waiting for it teaches all of `A`. -/
def Covers (A : List Address) (q : Peer) : Prop :=
  (∀ x ∈ A, x ∈ q.member.agents) ∨ ∃ msg ∈ q.queue, ∀ x ∈ A, x ∈ msg.taught

/-- What holds along every run with `v` virtual nodes per agent. -/
structure Inv (v : UInt16) (net : List Peer) : Prop where
  nodup : (addrs net).Nodup
  agent : ∀ p ∈ net, p.member.isAgent = true
  rounds : ∀ p ∈ net, 0 < p.member.hbRounds
  self : ∀ p ∈ net, p.member.addr ∈ p.member.agents
  ascending : ∀ p ∈ net, p.member.agents.Pairwise (Address.compare · · = .lt)
  ring : ∀ p ∈ net, p.member.ring = (Ring.empty v).build p.member.agents
  /-- Only running agents are known. -/
  known : ∀ p ∈ net, ∀ x ∈ p.member.agents, x ∈ addrs net
  /-- Only running agents are taught. -/
  carried : ∀ p ∈ net, ∀ msg ∈ p.queue, ∀ x ∈ msg.taught, x ∈ addrs net
  /-- An agent with its counter spent has made what it knows known to every agent it knows. -/
  covered : ∀ p ∈ net, ∀ q ∈ net, q.member.addr ∈ p.member.agents →
    q.member.addr ≠ p.member.addr → 0 < p.member.hbCtr ∨ Covers p.member.agents q
  /-- Each agent but the first knows one that came before it. -/
  linked : ∀ i p, net[i]? = some p → 0 < i →
    ∃ j q, j < i ∧ net[j]? = some q ∧ q.member.addr ∈ p.member.agents

/-- What a step makes of one agent `p` of `net`, for the invariant to carry over: the same
participant, knowing more but only running agents, still ascending with its ring built from what
it knows; its waiting messages kept or learned, new ones teaching only running agents; and its
counter not spent, or what it knows unchanged and either its counter spent already or its view
just sent to every agent it knows. -/
structure Carries (v : UInt16) (net : List Peer) (g : Peer → Peer) (p : Peer) : Prop where
  addr : (g p).member.addr = p.member.addr
  isAgent : (g p).member.isAgent = p.member.isAgent
  hbRounds : (g p).member.hbRounds = p.member.hbRounds
  sub : ∀ x ∈ p.member.agents, x ∈ (g p).member.agents
  known : ∀ x ∈ (g p).member.agents, x ∈ p.member.agents ∨ x ∈ addrs net
  ascending : p.member.agents.Pairwise (Address.compare · · = .lt) →
    (g p).member.agents.Pairwise (Address.compare · · = .lt)
  ring : p.member.ring = (Ring.empty v).build p.member.agents →
    (g p).member.ring = (Ring.empty v).build (g p).member.agents
  kept : ∀ msg ∈ p.queue, msg ∈ (g p).queue ∨ ∀ x ∈ msg.taught, x ∈ (g p).member.agents
  carried : ∀ msg ∈ (g p).queue, msg ∈ p.queue ∨ ∀ x ∈ msg.taught, x ∈ addrs net
  counter : 0 < (g p).member.hbCtr ∨ ((g p).member.agents = p.member.agents ∧
    (p.member.hbCtr = 0 ∨ ∀ q ∈ net, q.member.addr ∈ p.member.agents →
      q.member.addr ≠ p.member.addr → Covers p.member.agents (g q)))

variable {v : UInt16}

/-- What an agent is covered by stays covered when it learns and keeps its messages. -/
theorem Covers.carry {net : List Peer} {g : Peer → Peer} {q : Peer} (hq : Carries v net g q)
    {A : List Address} (h : Covers A q) : Covers A (g q) := by
  rcases h with hk | ⟨msg, hmsg, ht⟩
  · exact .inl fun x hx => hq.sub x (hk x hx)
  · rcases hq.kept msg hmsg with hin | hlearn
    · exact .inr ⟨msg, hin, ht⟩
    · exact .inl fun x hx => hlearn x (ht x hx)

/-- A step that carries every agent keeps the invariant. -/
theorem Inv.map {net : List Peer} (h : Inv v net) {g : Peer → Peer}
    (hg : ∀ p ∈ net, Carries v net g p) : Inv v (net.map g) := by
  have haddrs : addrs (net.map g) = addrs net := by
    simp only [addrs, List.map_map]
    exact List.map_congr_left fun p hp => (hg p hp).addr
  refine ⟨haddrs ▸ h.nodup, ?_, ?_, ?_, ?_, ?_, ?_, ?_, ?_, ?_⟩
  · simp only [List.mem_map]
    rintro _ ⟨p, hp, rfl⟩
    rw [(hg p hp).isAgent]
    exact h.agent p hp
  · simp only [List.mem_map]
    rintro _ ⟨p, hp, rfl⟩
    rw [(hg p hp).hbRounds]
    exact h.rounds p hp
  · simp only [List.mem_map]
    rintro _ ⟨p, hp, rfl⟩
    rw [(hg p hp).addr]
    exact (hg p hp).sub _ (h.self p hp)
  · simp only [List.mem_map]
    rintro _ ⟨p, hp, rfl⟩
    exact (hg p hp).ascending (h.ascending p hp)
  · simp only [List.mem_map]
    rintro _ ⟨p, hp, rfl⟩
    exact (hg p hp).ring (h.ring p hp)
  · simp only [List.mem_map, haddrs]
    rintro _ ⟨p, hp, rfl⟩ x hx
    exact ((hg p hp).known x hx).elim (h.known p hp x) id
  · simp only [List.mem_map, haddrs]
    rintro _ ⟨p, hp, rfl⟩ msg hmsg x hx
    exact ((hg p hp).carried msg hmsg).elim (fun hin => h.carried p hp msg hin x hx)
      fun hnew => hnew x hx
  · simp only [List.mem_map]
    rintro _ ⟨p, hp, rfl⟩ _ ⟨q, hq, rfl⟩ hknown hne
    rw [(hg q hq).addr] at hknown hne
    rw [(hg p hp).addr] at hne
    rcases (hg p hp).counter with hpos | ⟨hsame, hspent | hsent⟩
    · exact .inl hpos
    · -- spent before: `q` was covered, and stays so
      rw [hsame] at hknown ⊢
      rcases h.covered p hp q hq hknown hne with hpos | hcov
      · omega
      · exact .inr (hcov.carry (hg q hq))
    · rw [hsame] at hknown ⊢
      exact .inr (hsent q hq hknown hne)
  · intro i p' hp' hi
    rw [List.getElem?_map] at hp'
    obtain ⟨p, hp, rfl⟩ := Option.map_eq_some_iff.mp hp'
    obtain ⟨j, q, hj, hq, hknown⟩ := h.linked i p hp hi
    refine ⟨j, g q, hj, by rw [List.getElem?_map, hq]; rfl, ?_⟩
    rw [(hg q (List.mem_of_getElem? hq)).addr]
    exact (hg p (List.mem_of_getElem? hp)).sub _ hknown

/-! ### Every step keeps the invariant -/

/-- An agent whose view stays as it is is carried when its counter is set to `c` and it gets
messages teaching only running agents, as long as the counter is not spent, or was spent
already, or every other agent it knows is covered after the step. -/
theorem carries_of_view {net : List Peer} {g : Peer → Peer} {p : Peer} {c : Nat}
    {new : List Message} (hg : g p = ⟨{ p.member with hbCtr := c }, p.queue ++ new⟩)
    (hnew : ∀ msg ∈ new, ∀ x ∈ msg.taught, x ∈ addrs net)
    (hc : 0 < c ∨ p.member.hbCtr = 0 ∨ ∀ q ∈ net, q.member.addr ∈ p.member.agents →
      q.member.addr ≠ p.member.addr → Covers p.member.agents (g q)) : Carries v net g p where
  addr := by rw [hg]
  isAgent := by rw [hg]
  hbRounds := by rw [hg]
  sub x hx := by rwa [hg]
  known x hx := .inl (by rwa [hg] at hx)
  ascending hasc := by rwa [hg]
  ring hring := by rwa [hg]
  kept msg hmsg := .inl (by rw [hg]; exact List.mem_append_left _ hmsg)
  carried msg hmsg := by
    rw [hg, List.mem_append] at hmsg
    exact hmsg.imp_right (hnew msg)
  counter := by
    rw [hg]
    exact hc.imp_right fun hc => ⟨rfl, hc⟩

/-- An agent that only gets messages, each teaching only running agents, is carried. -/
theorem carries_posted {net : List Peer} {g : Peer → Peer} {p : Peer} {ps : List Post}
    (hg : g p = { p with queue := p.queue ++ sentTo ps p.member.addr })
    (hps : ∀ post ∈ ps, ∀ x ∈ post.2.taught, x ∈ addrs net) : Carries v net g p := by
  refine carries_of_view hg (fun msg hmsg => hps _ (mem_sentTo.mp hmsg)) ?_
  rcases Nat.eq_zero_or_pos p.member.hbCtr with h0 | hpos
  · exact .inr (.inl h0)
  · exact .inl hpos

/-- Pushing messages that teach only running agents keeps the invariant. -/
theorem Inv.postAll {net : List Peer} (h : Inv v net) {ps : List Post}
    (hps : ∀ post ∈ ps, ∀ x ∈ post.2.taught, x ∈ addrs net) : Inv v (postAll net ps) := by
  rw [postAll_eq]
  exact h.map fun _ _ => carries_posted rfl hps

/-- What an agent sends in answer to a message teaches only running agents. -/
theorem Inv.taught_receive {net : List Peer} (h : Inv v net) {m : Member} {msg : Message}
    {rest : List Message} (hp : ⟨m, msg :: rest⟩ ∈ net) :
    ∀ post ∈ (m.receive msg).2, ∀ x ∈ post.2.taught, x ∈ addrs net := by
  intro post hpost x hx
  have hlearned := Member.taught_receive msg post hpost x hx
  exact ((Member.learns_receive msg).mem_agents x |>.mp hlearned).elim (h.known _ hp x)
    (h.carried _ hp msg List.mem_cons_self x)

/-- The agent taking a message is carried: it learns what the message teaches, and rearms its
counter if that is new to it. -/
theorem carries_receive {net : List Peer} (h : Inv v net) {g : Peer → Peer} {m : Member}
    {msg : Message} {rest : List Message} (hp : ⟨m, msg :: rest⟩ ∈ net)
    (hg : g ⟨m, msg :: rest⟩ = ⟨(m.receive msg).1, rest ++ sentTo (m.receive msg).2 m.addr⟩) :
    Carries v net g ⟨m, msg :: rest⟩ := by
  have hl := Member.learns_receive (m := m) msg
  have htaught : ∀ x ∈ msg.taught, x ∈ addrs net := h.carried _ hp msg List.mem_cons_self
  refine ⟨by rw [hg]; exact hl.addr, by rw [hg]; exact hl.isAgent, by rw [hg]; exact hl.hbRounds,
    fun x hx => by rw [hg]; exact hl.sub hx, fun x hx => ?_, fun hasc => by
      rw [hg]; exact hl.ascending hasc, fun hring => by rw [hg]; exact hl.ring _ hring,
    fun msg' hmsg' => ?_, fun msg' hmsg' => ?_, ?_⟩
  · rw [hg] at hx
    exact ((hl.mem_agents x).mp hx).imp_right (htaught x)
  · -- the message taken is learned, the others stay waiting
    rw [hg]
    rcases List.mem_cons.mp hmsg' with rfl | hin
    · exact .inr fun x hx => hl.taught hx
    · exact .inl (List.mem_append_left _ hin)
  · rw [hg, List.mem_append] at hmsg'
    rcases hmsg' with hin | hsent
    · exact .inl (List.mem_cons_of_mem _ hin)
    · exact .inr (h.taught_receive hp _ (mem_sentTo.mp hsent))
  · rw [hg]
    rcases hl.counter with ⟨hsame, hctr⟩ | hre
    · rcases Nat.eq_zero_or_pos m.hbCtr with h0 | hpos
      · exact .inr ⟨hsame, .inl h0⟩
      · exact .inl (hctr ▸ hpos)
    · exact .inl (hre ▸ h.rounds _ hp)

/-- Taking the oldest waiting message keeps the invariant. -/
theorem Inv.deliver {net : List Peer} (h : Inv v net) (a : Address) : Inv v (deliver net a) := by
  match hp : net.find? (·.member.addr == a) with
  | some ⟨m, msg :: rest⟩ =>
    have hmem : (⟨m, msg :: rest⟩ : Peer) ∈ net := List.mem_of_find?_eq_some hp
    have hpa : m.addr = a := by simpa using List.find?_some hp
    rw [deliver_eq hp]
    refine h.map fun q hq => ?_
    by_cases hqa : q.member.addr = a
    · obtain rfl := eq_of_find? h.nodup hp hq hqa
      exact carries_receive h hmem (by simp [hpa])
    · exact carries_posted (by simp [hqa]) (h.taught_receive hmem)
  | some ⟨_, []⟩ =>
    simp only [Gossip.deliver, hp]
    exact h
  | none =>
    simp only [Gossip.deliver, hp]
    exact h

/-- What a heartbeat sends teaches only running agents. -/
theorem Inv.taught_heartbeat {net : List Peer} (h : Inv v net) {p : Peer} (hp : p ∈ net)
    (size : Nat) : ∀ post ∈ (p.member.heartbeat size).2.2, ∀ x ∈ post.2.taught, x ∈ addrs net :=
  fun post hpost x hx => h.known p hp x (Member.taught_heartbeat size post hpost x hx)

/-- The agent whose heartbeat fires is carried: it spends a unit of its counter, and when that
spends the counter it has just sent its view to every other agent it knows. -/
theorem carries_heartbeat {net : List Peer} (h : Inv v net) {g : Peer → Peer} {p : Peer}
    (hp : p ∈ net) (size : Nat)
    (hg : ∀ q ∈ net, g q = if q.member.addr = p.member.addr then
        ⟨(p.member.heartbeat size).2.1,
          q.queue ++ sentTo (p.member.heartbeat size).2.2 p.member.addr⟩
      else { q with queue := q.queue ++ sentTo (p.member.heartbeat size).2.2 q.member.addr }) :
    Carries v net g p := by
  by_cases h0 : p.member.hbCtr = 0
  · refine carries_posted ?_ (h.taught_heartbeat hp size)
    rw [hg p hp, if_pos rfl, Member.heartbeat_spent h0]
  have hgp : g p = ⟨{ p.member with hbCtr := p.member.hbCtr - 1 },
      p.queue ++ sentTo (p.member.heartbeat size).2.2 p.member.addr⟩ := by
    rw [hg p hp, if_pos rfl, Member.heartbeat_state h0]
  refine carries_of_view hgp
    (fun msg hmsg => h.taught_heartbeat hp size _ (mem_sentTo.mp hmsg)) ?_
  by_cases h1 : p.member.hbCtr = 1
  · -- the last unit: every other agent known now has the view waiting
    refine .inr (.inr fun q hq hknown hne =>
      .inr ⟨.heartbeat p.member.agents, ?_, fun x hx => hx⟩)
    rw [hg q hq, if_neg hne]
    exact List.mem_append_right _ (mem_sentTo.mpr (Member.heartbeat_reaches h0 hknown hne))
  · exact .inl (by omega)

/-- A heartbeat keeps the invariant. -/
theorem Inv.tick {net : List Peer} (h : Inv v net) (a : Address) (size : Nat) :
    Inv v (tick net a size) := by
  match hp : net.find? (·.member.addr == a) with
  | some p =>
    have hmem : p ∈ net := List.mem_of_find?_eq_some hp
    have hpa : p.member.addr = a := by simpa using List.find?_some hp
    rw [tick_eq hp]
    subst hpa
    refine h.map fun q hq => ?_
    by_cases hqa : q.member.addr = p.member.addr
    · obtain rfl := eq_of_find? h.nodup hp hq hqa
      exact carries_heartbeat h hmem size fun _ _ => rfl
    · exact carries_posted (by simp [hqa]) (h.taught_heartbeat hmem size)
  | none =>
    simp only [Gossip.tick, hp]
    exact h

/-- A new agent that knows itself and a running agent, with its counter armed, keeps the
invariant as it comes in. -/
theorem Inv.append {net : List Peer} (h : Inv v net) (n : Member) (hfresh : n.addr ∉ addrs net)
    (hagent : n.isAgent = true) (hrounds : 0 < n.hbRounds) (hself : n.addr ∈ n.agents)
    (hasc : n.agents.Pairwise (Address.compare · · = .lt))
    (hring : n.ring = (Ring.empty v).build n.agents)
    (hknown : ∀ x ∈ n.agents, x = n.addr ∨ x ∈ addrs net) (hctr : 0 < n.hbCtr)
    {seed : Address} (hseed : seed ∈ n.agents) (hs : seed ∈ addrs net) :
    Inv v (net ++ [⟨n, []⟩]) := by
  have haddrs : addrs (net ++ [⟨n, []⟩]) = addrs net ++ [n.addr] := by simp [addrs]
  have hmem : ∀ {p : Peer}, p ∈ net ++ [⟨n, []⟩] → p ∈ net ∨ p = ⟨n, []⟩ := by simp
  refine ⟨?_, ?_, ?_, ?_, ?_, ?_, ?_, ?_, ?_, ?_⟩
  · rw [haddrs, ← List.concat_eq_append]
    exact h.nodup.concat hfresh
  · intro p hp
    rcases hmem hp with hp | rfl
    · exact h.agent p hp
    · exact hagent
  · intro p hp
    rcases hmem hp with hp | rfl
    · exact h.rounds p hp
    · exact hrounds
  · intro p hp
    rcases hmem hp with hp | rfl
    · exact h.self p hp
    · exact hself
  · intro p hp
    rcases hmem hp with hp | rfl
    · exact h.ascending p hp
    · exact hasc
  · intro p hp
    rcases hmem hp with hp | rfl
    · exact h.ring p hp
    · exact hring
  · rw [haddrs]
    intro p hp x hx
    rcases hmem hp with hp | rfl
    · exact List.mem_append_left _ (h.known p hp x hx)
    · rcases hknown x hx with rfl | hx
      · exact List.mem_append_right _ (List.mem_singleton_self _)
      · exact List.mem_append_left _ hx
  · rw [haddrs]
    intro p hp msg hmsg x hx
    rcases hmem hp with hp | rfl
    · exact List.mem_append_left _ (h.carried p hp msg hmsg x hx)
    · exact absurd hmsg List.not_mem_nil
  · intro p hp q hq hk hne
    rcases hmem hp with hp | rfl <;> rcases hmem hq with hq | rfl
    · exact h.covered p hp q hq hk hne
    · -- no running agent knows the newcomer yet
      exact absurd (h.known p hp _ hk) hfresh
    · exact .inl hctr
    · exact .inl hctr
  · intro i p hp hi
    rcases Nat.lt_or_ge i net.length with hlt | hge
    · rw [List.getElem?_append_left hlt] at hp
      obtain ⟨j, q, hj, hq, hk⟩ := h.linked i p hp hi
      refine ⟨j, q, hj, ?_, hk⟩
      rw [List.getElem?_append_left (by omega)]
      exact hq
    · -- the newcomer is last and knows the seed, which runs already
      have hin : p ∈ [(⟨n, []⟩ : Peer)] := by
        rw [List.getElem?_append_right hge] at hp
        exact List.mem_of_getElem? hp
      obtain rfl := List.mem_singleton.mp hin
      obtain ⟨q, hq, rfl⟩ := List.mem_map.mp hs
      obtain ⟨j, hj⟩ := List.mem_iff_getElem?.mp hq
      have hjlt : j < net.length := (List.getElem?_eq_some_iff.mp hj).1
      exact ⟨j, q, by omega, by rw [List.getElem?_append_left hjlt]; exact hj, hseed⟩

/-- A new agent joining through a running one keeps the invariant. -/
theorem Inv.join {net : List Peer} (h : Inv v net) {a seed : Address} {r : Nat} (hr : 0 < r)
    (ha : a ∉ addrs net) (hs : seed ∈ addrs net) :
    Inv v (join net (Member.agent a v r) seed) := by
  have hl := Member.learns_addNeighbor (m := Member.agent a v r) seed true
  have hne : seed ≠ a := fun heq => ha (heq ▸ hs)
  have hseed : seed ∈ ((Member.agent a v r).addNeighbor seed true).2.1.agents :=
    hl.taught (List.mem_singleton_self _)
  have hknown : ∀ x ∈ ((Member.agent a v r).addNeighbor seed true).2.1.agents,
      x = a ∨ x = seed := by
    intro x hx
    simpa [Member.agent] using (hl.mem_agents x).mp hx
  have hctr : ((Member.agent a v r).addNeighbor seed true).2.1.hbCtr = r := by
    rcases hl.counter with ⟨hsame, -⟩ | hre
    · -- the seed was new to it, so it learned something
      rw [hsame] at hseed
      exact absurd (List.mem_singleton.mp hseed) hne
    · exact hre
  have happ := h.append ((Member.agent a v r).addNeighbor seed true).2.1
    (by rw [hl.addr]; exact ha) (by rw [hl.isAgent]; rfl) (by rw [hl.hbRounds]; exact hr)
    (by rw [hl.addr]; exact hl.sub (List.mem_singleton_self a))
    (hl.ascending (List.pairwise_singleton _ a)) (hl.ring _ rfl)
    (fun x hx => (hknown x hx).imp (fun hxa => hxa.trans hl.addr.symm)
      fun (hxs : x = seed) => hxs ▸ hs)
    (by rw [hctr]; exact hr) hseed hs
  rw [Gossip.join, Member.join_eq]
  refine happ.postAll fun post hpost x hx => ?_
  -- the only message sent is the new view, naming running agents and the newcomer
  rw [Member.addNeighbor_posts seed true post hpost] at hx
  rcases hknown x hx with hxa | hxs
  · exact List.mem_map.mpr ⟨_, List.mem_append_right _ (List.mem_singleton_self _),
      hl.addr.trans hxa.symm⟩
  · obtain ⟨q, hq, hqa⟩ := List.mem_map.mp hs
    exact List.mem_map.mpr ⟨q, List.mem_append_left _ hq, hqa.trans hxs.symm⟩

/-- A message of the protocol from outside, naming only running agents, keeps the invariant. -/
theorem Inv.send {net : List Peer} (h : Inv v net) (a : Address) {msg : Message}
    (ht : ∀ x ∈ msg.taught, x ∈ addrs net) : Inv v (post net (a, msg)) := by
  show Inv v (Gossip.postAll net [(a, msg)])
  refine h.postAll fun post hpost => ?_
  rw [List.mem_singleton.mp hpost]
  exact ht

/-- The invariant holds at the start. -/
theorem Inv.start (a : Address) {r : Nat} (hr : 0 < r) : Inv v (start v a r) := by
  refine ⟨List.nodup_singleton _, ?_, ?_, ?_, ?_, ?_, ?_, ?_, ?_, ?_⟩
  all_goals simp only [Gossip.start, List.mem_singleton]
  · rintro p rfl
    rfl
  · rintro p rfl
    exact hr
  · rintro p rfl
    exact List.mem_singleton_self a
  · rintro p rfl
    exact List.pairwise_singleton _ a
  · rintro p rfl
    rfl
  · rintro p rfl x hx
    simpa [addrs, Member.agent] using hx
  · rintro p rfl msg hmsg
    exact absurd hmsg List.not_mem_nil
  · -- one agent alone knows no other
    rintro p rfl q rfl hk hne
    exact absurd rfl hne
  · intro i p hp hi
    rw [List.getElem?_singleton] at hp
    simp [Nat.ne_of_gt hi] at hp

/-- Every step keeps the invariant. -/
theorem Inv.step {net net' : List Peer} (h : Inv v net) (hs : Step v net net') : Inv v net' := by
  cases hs with
  | deliver a => exact h.deliver a
  | tick a size => exact h.tick a size
  | send a msg _ ht => exact h.send a ht
  | join a seed r hr ha hseed => exact h.join hr ha hseed

/-- The invariant holds along every run. -/
theorem Inv.run {a : Address} {r : Nat} (hr : 0 < r) {net : List Peer}
    (hrun : Relation.ReflTransGen (Step v) (Gossip.start v a r) net) : Inv v net := by
  induction hrun with
  | refl => exact Inv.start a hr
  | tail _ hs ih => exact ih.step hs

/-! ### Agreement once membership is quiet -/

/-- A message that teaches an agent is a message of the membership protocol. -/
theorem changesMembership_of_mem_taught {msg : Message} {x : Address} (hx : x ∈ msg.taught) :
    msg.changesMembership = true := by
  cases msg <;> first | rfl | simp [Message.taught] at hx

/-- Membership is quiet: every heartbeat counter is spent and no message of the membership
protocol waits. -/
def Quiet (net : List Peer) : Prop :=
  ∀ p ∈ net, p.member.hbCtr = 0 ∧ ∀ msg ∈ p.queue, msg.changesMembership = false

instance : DecidablePred Quiet := fun _ => inferInstanceAs (Decidable (∀ _ ∈ _, _))

section Quiet

variable {net : List Peer} (h : Inv v net) (hquiet : Quiet net)
include h hquiet

/-- Once quiet, an agent known to another knows all the other knows: the other's counter is
spent, so its view is known already or waits in a membership message. -/
theorem Inv.sub_of_quiet {p q : Peer} (hp : p ∈ net) (hq : q ∈ net)
    (hk : q.member.addr ∈ p.member.agents) : ∀ x ∈ p.member.agents, x ∈ q.member.agents := by
  by_cases hne : q.member.addr = p.member.addr
  · obtain rfl : q = p := List.inj_on_of_nodup_map h.nodup hq hp hne
    exact fun _ hx => hx
  rcases h.covered p hp q hq hk hne with hpos | (hall | ⟨msg, hmsg, hteach⟩)
  · rw [(hquiet p hp).1] at hpos
    exact absurd hpos (Nat.lt_irrefl 0)
  · exact hall
  · -- the waiting message teaches at least the agent itself
    have hchanges := changesMembership_of_mem_taught (hteach _ (h.self p hp))
    rw [(hquiet q hq).2 msg hmsg] at hchanges
    cases hchanges

/-- Once quiet, two agents of which one knows the other know the same agents. -/
theorem Inv.same_of_quiet {p q : Peer} (hp : p ∈ net) (hq : q ∈ net)
    (hk : q.member.addr ∈ p.member.agents) :
    ∀ x, x ∈ p.member.agents ↔ x ∈ q.member.agents := by
  have hback : p.member.addr ∈ q.member.agents :=
    h.sub_of_quiet hquiet hp hq hk _ (h.self p hp)
  exact fun x => ⟨h.sub_of_quiet hquiet hp hq hk x, h.sub_of_quiet hquiet hq hp hback x⟩

/-- Once quiet, every agent knows what the first agent knows, by induction along the chain of
agents each knowing an earlier one. -/
theorem Inv.same_as_first_of_quiet {p₀ : Peer} (h₀ : net[0]? = some p₀) :
    ∀ (i : Nat) (p : Peer), net[i]? = some p →
      ∀ x, x ∈ p.member.agents ↔ x ∈ p₀.member.agents := by
  intro i
  induction i using Nat.strong_induction_on with
  | _ i ih =>
    intro p hp x
    rcases Nat.eq_zero_or_pos i with rfl | hi
    · rw [hp, Option.some.injEq] at h₀
      rw [h₀]
    · obtain ⟨j, q, hj, hq, hk⟩ := h.linked i p hp hi
      rw [h.same_of_quiet hquiet (List.mem_of_getElem? hp) (List.mem_of_getElem? hq) hk x]
      exact ih j hj q hq x

/-- Once quiet, any two agents know the same agents. -/
theorem Inv.same_of_mem_of_quiet {p q : Peer} (hp : p ∈ net) (hq : q ∈ net) :
    ∀ x, x ∈ p.member.agents ↔ x ∈ q.member.agents := by
  obtain ⟨p₀, h₀⟩ : ∃ p₀, net[0]? = some p₀ := by
    cases net with
    | nil => exact absurd hp List.not_mem_nil
    | cons p₀ _ => exact ⟨p₀, rfl⟩
  obtain ⟨i, hi⟩ := List.mem_iff_getElem?.mp hp
  obtain ⟨j, hj⟩ := List.mem_iff_getElem?.mp hq
  intro x
  rw [h.same_as_first_of_quiet hquiet h₀ i p hi x, h.same_as_first_of_quiet hquiet h₀ j q hj x]

/-- Once quiet, every agent knows exactly the agents that have joined. -/
theorem Inv.agents_of_quiet {p : Peer} (hp : p ∈ net) :
    ∀ x, x ∈ p.member.agents ↔ x ∈ addrs net := by
  intro x
  refine ⟨h.known p hp x, fun hx => ?_⟩
  obtain ⟨q, hq, rfl⟩ := List.mem_map.mp hx
  exact (h.same_of_mem_of_quiet hquiet hp hq _).mpr (h.self q hq)

/-- Once quiet, all agents hold one list of agents. -/
theorem Inv.agents_eq_of_quiet {p q : Peer} (hp : p ∈ net) (hq : q ∈ net) :
    q.member.agents = p.member.agents :=
  Address.eq_of_ascending (h.ascending q hq) (h.ascending p hp)
    (h.same_of_mem_of_quiet hquiet hq hp)

end Quiet

/-- Membership converges. Along every run of agents that start from one, join one at a time
through a running agent with a positive number of gossip rounds, and take membership messages
and heartbeats in any order, each agent's ring is the one built from the agents it knows. Once
every heartbeat counter is spent and no membership message waits, every agent knows exactly the
agents that have joined, so all hold the same ring and agree on the owner of every key and on
the synchronizer. -/
theorem membership_converges {v : UInt16} {a : Address} {r : Nat} (hr : 0 < r)
    {net : List Peer} (hrun : Relation.ReflTransGen (Step v) (start v a r) net) :
    (∀ p ∈ net, p.member.ring = (Ring.empty v).build p.member.agents) ∧
    (Quiet net → ∀ p ∈ net, (∀ x, x ∈ p.member.agents ↔ x ∈ addrs net) ∧
      ∀ q ∈ net, q.member.agents = p.member.agents ∧ q.member.ring = p.member.ring ∧
        (∀ k, q.member.owner k = p.member.owner k) ∧
        q.member.synchronizer = p.member.synchronizer) := by
  have h := Inv.run hr hrun
  refine ⟨h.ring, fun hquiet p hp => ⟨h.agents_of_quiet hquiet hp, fun q hq => ?_⟩⟩
  have hagents := h.agents_eq_of_quiet hquiet hp hq
  have hring : q.member.ring = p.member.ring := by rw [h.ring q hq, h.ring p hp, hagents]
  refine ⟨hagents, hring, fun k => ?_, ?_⟩
  · simp only [Member.owner, hring]
  · simp only [Member.synchronizer, Member.owner, hring]

/-- Two agents with one gossip round each: the second joins through the first, the views are
exchanged, both heartbeats fire and every message is taken. Membership is then quiet, and both
agents know both. -/
theorem membership_converges_two_agents :
    let net := deliver (deliver (deliver (deliver (tick (tick (deliver (deliver
      (join (start 1 (Address.loopback 0) 1) (Member.agent (Address.loopback 1) 1 1)
        (Address.loopback 0)) (Address.loopback 0)) (Address.loopback 1))
      (Address.loopback 0) 0) (Address.loopback 1) 0) (Address.loopback 0))
      (Address.loopback 0)) (Address.loopback 1)) (Address.loopback 1)
    Quiet net ∧ ∀ p ∈ net, (∀ x, x ∈ p.member.agents ↔ x ∈ addrs net) ∧
      ∀ q ∈ net, q.member.agents = p.member.agents ∧ q.member.ring = p.member.ring ∧
        (∀ k, q.member.owner k = p.member.owner k) ∧
        q.member.synchronizer = p.member.synchronizer := by
  intro net
  have hjoin : Step 1 (start 1 (Address.loopback 0) 1)
      (join (start 1 (Address.loopback 0) 1) (Member.agent (Address.loopback 1) 1 1)
        (Address.loopback 0)) :=
    .join _ _ _ 1 Nat.one_pos (by decide) (by decide)
  have hrun : Relation.ReflTransGen (Step 1) (start 1 (Address.loopback 0) 1) net :=
    ((((((((Relation.ReflTransGen.single hjoin).tail (.deliver _ _)).tail (.deliver _ _)).tail
      (.tick _ _ _)).tail (.tick _ _ _)).tail (.deliver _ _)).tail (.deliver _ _)).tail
      (.deliver _ _)).tail (.deliver _ _)
  have hquiet : Quiet net := by decide
  exact ⟨hquiet, (membership_converges Nat.one_pos hrun).2 hquiet⟩

end Gossip

end ShardStore
