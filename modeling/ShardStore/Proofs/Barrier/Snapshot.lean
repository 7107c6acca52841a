import ShardStore.Proofs.Barrier.Frozen
import ShardStore.Proofs.Barrier.Phases
/-!
Sweeps and graph rounds read the stores as the end of their barrier left them.

A single-entry round sweeps when an agent takes the end of the barrier it waited in at the
sweep stage, and the graph stage computes once the end of its first barrier has sent the vertex
lists round. Both read stores, the agent's own and, by key, those of the other agents, so what
they write could depend on the order in which frames are taken. It does not: from the move of
the synchronizer that ends such a barrier to the move that ends the next, every agent stages or
holds back what it takes, and no agent commits, since committing waits for the end of the
barrier after, which no agent can be sent before every agent has reported. So every store stays
as it was when the barrier ended, whatever clients write or read meanwhile.

A run here is a run of `Mesh.Trace` in which clients may also ask any bound agent for a write or
a read between two deliveries. `Snapshots` is what such a run keeps: the lock-step invariant,
the counts of barrier ends taken and of barriers ended as the ghost has them, and, while the last
barrier ended opened a sweep or the graph stage's rounds, the move that ended it, with every
store as that move left it. Every move keeps it (`Snapshots.deliver`, `Snapshots.request`), and
`rounds_read_released_stores` reads it off at each sweep and each move of the graph rounds.
-/

namespace ShardStore

open Agent Mesh Lockstep

/-! ### Client requests -/

section Requests

variable {Q : Roster} {me : Address}

/-- A by-key read, answered from a store or asked of another agent, moves no agent. -/
theorem quiet_getEntryByKey {call : Call} (hcall : ∀ d k, Quiet Q (call d (.getEntryByKey k)))
    (c : Address) (k : Key) : Quiet Q (getEntryByKey call c k) := by
  unfold getEntryByKey
  refine quiet_nodeOf.bind fun _ => quiet_lift.bind fun _ => ?_
  split
  · exact quiet_pure
  · exact hcall _ _

theorem quiet_dispatch_read {call : Call} (hcall : ∀ d k, Quiet Q (call d (.getEntryByKey k)))
    (c : Address) (k : Key) (origin : Origin) :
    Quiet Q (dispatch call c (Message.getEntryByKey k).encode origin) := by
  refine Quiet.bind ?_ fun r => ?_
  · unfold handleFrame
    split
    · exact quiet_pure
    · rename_i msg hd
      obtain ⟨k', rfl⟩ := Message.eq_getEntryByKey_of_typeByte (Message.typeByte_of_decode_encode hd)
      exact quiet_tryCatch ((quiet_getEntryByKey hcall c k').bind fun _ => quiet_pure)
        fun _ => quiet_pure
  · split <;> exact quiet_pure

/-- A by-key read moves no agent, however deep the requests it makes go. -/
theorem quiet_request_read (fuel : Nat) (dest : Address) (k : Key) :
    Quiet Q (request fuel dest (.getEntryByKey k)) := by
  induction fuel generalizing dest k with
  | zero => exact quiet_throw
  | succ fuel ih =>
    unfold Agent.request
    refine quiet_get.bind fun m => ?_
    extract_lets finish
    have hfinish : ∀ bytes, Quiet Q (finish bytes) := fun _ => by
      dsimp only [finish]
      split
      · exact quiet_lift
      · exact quiet_throw
    split
    · exact quiet_pure.bind hfinish
    · split
      · exact quiet_throw.bind hfinish
      · split
        · refine (quiet_modify (by exact fun _ => rfl) (by exact fun _ => rfl)).bind fun _ =>
            (quiet_dispatch_read (fun d k => ih d k) dest k .client).bind fun r => ?_
          split
          refine (quiet_modify (by exact fun _ => rfl) (by exact fun _ => rfl)).bind fun _ => ?_
          extract_lets answer
          have hanswer : ∀ u, Quiet Q (answer u) := fun _ => quiet_pure.bind hfinish
          split
          · exact quiet_halt.bind hanswer
          · exact hanswer ()
        · exact quiet_throw.bind hfinish

theorem quiet_call_read (dest : Address) (k : Key) : Quiet Q (call dest (.getEntryByKey k)) :=
  quiet_get.bind fun _ => quiet_request_read _ _ _

/-- A client's write is placed and not counted as one pushed by a peer. -/
theorem quiet_onMutation_client (mu : Mutation) : Quiet Q (onMutation me mu .client) := by
  unfold onMutation
  refine (quiet_tryCatch ((quiet_place 4 mu false).bind fun _ => quiet_pure)
    fun _ => quiet_pure).bind fun failed => ?_
  dsimp only
  rw [if_neg (show ¬(Origin.client == Origin.peer) = true from Bool.false_ne_true)]
  split
  · exact quiet_throw
  · exact quiet_pure

/-- A client's write or read moves no agent. -/
theorem quiet_handle_data {msg : Message} (hmsg : msg.Data) :
    Quiet Q (handle call me msg .client) := by
  have hread : ∀ {f : Node → Reply}, Quiet Q (Mesh.nodeOf me >>= fun n => pure (f n)) :=
    quiet_nodeOf.bind fun _ => quiet_pure
  cases msg
  case numNeighbors | getNeighbors | ringSize | dbSize | getState | processing | query
    | getEntries | installedFilters => exact hread
  case printEntries => exact quiet_pure
  case addEntry | addTag | removeTag | updateValue | subscribe =>
    exact (quiet_onMutation_client _).bind fun _ => quiet_pure
  case getEntryByKey k => exact quiet_getEntryByKey (fun d k => quiet_call_read d k) me k
  -- nothing else is a write or a read
  all_goals exact absurd hmsg Bool.false_ne_true

theorem Quiet.whileBusy {α : Type} {x : MeshM α} (hx : Quiet Q x) (a : Address) :
    Quiet Q (Mesh.whileBusy a x) := fun W => (hx W).whileBusy

/-- A client asks an agent for a write or a read: no agent moves. -/
theorem quiet_ask_data {msg : Message} (hmsg : msg.Data) (a : Address) :
    Quiet Q (ask a msg.encode) := by
  have hframe : Quiet Q (handleFrame call a msg.encode .client) := by
    unfold handleFrame
    split
    · exact quiet_pure
    · rename_i msg' hd
      exact quiet_tryCatch ((quiet_handle_data (hmsg.decode hd)).bind fun _ => quiet_pure)
        fun _ => quiet_pure
  unfold ask
  refine ((hframe.bind fun r => ?_).whileBusy a).bind fun r => ?_
  · split <;> exact quiet_pure
  · obtain ⟨reply, fatal⟩ := r
    dsimp only
    split
    · exact quiet_halt.bind fun _ => quiet_pure
    · exact quiet_pure

end Requests

/-! ### Runs with client requests -/

/-- One move of a run: the agent at `agent` takes the oldest frame of its inbox, whose signal,
if any, is `signal`, or answers a client's write or read; from the mesh `before` to `after`. -/
structure Move where
  agent : Address
  signal : Option Signal
  before : Mesh
  after : Mesh

namespace Move

/-- The agent at `a` takes the end of a barrier. -/
def TakesEnd (a : Address) (e : Move) : Bool := decide (e.agent = a ∧ e.signal = some .endBarrier)

/-- The move ends a barrier: its agent pushes the end of a barrier to every agent, itself among
them, so one joins its own inbox. -/
def Releases (e : Move) : Bool :=
  decide ((e.before.view e.agent).signals.count .endBarrier <
    (e.after.view e.agent).signals.count .endBarrier)

end Move

/-- The runs from `m₀` in which agents take frames one at a time and clients ask bound agents
for writes and reads, with the moves made. -/
inductive Mesh.Run (m₀ : Mesh) : List Move → Mesh → Prop
  | nil : Run m₀ [] m₀
  | deliver {t : List Move} {m : Mesh} (h : Run m₀ t m) (a : Address) :
      Run m₀ (t ++ [⟨a, m.nextSignal? a, m, endState (handleNext a m)⟩]) (endState (handleNext a m))
  | request {t : List Move} {m : Mesh} (h : Run m₀ t m) {a : Address} (ha : m.isBound a = true)
      {msg : Message} (hmsg : msg.Data) :
      Run m₀ (t ++ [⟨a, none, m, endState (ask a msg.encode m)⟩]) (endState (ask a msg.encode m))

/-- Each move of a run is made from a mesh the moves before it reach, and the signal it took is
the one waiting there first. -/
theorem Mesh.Run.split {m₀ m : Mesh} {t₁ t₂ : List Move} {e : Move}
    (h : Run m₀ (t₁ ++ e :: t₂) m) :
    Run m₀ t₁ e.before ∧ ∀ x, e.signal = some x → e.before.nextSignal? e.agent = some x := by
  generalize ht : t₁ ++ e :: t₂ = t at h
  induction h generalizing t₂ with
  | nil => simp at ht
  | deliver h a ih =>
    rcases List.eq_nil_or_concat t₂ with rfl | ⟨t₂', x, rfl⟩
    · obtain ⟨rfl, he⟩ := List.append_inj' ht rfl
      obtain rfl := List.singleton_inj.mp he
      exact ⟨h, fun _ hx => hx⟩
    · rw [List.concat_eq_append, ← List.cons_append, ← List.append_assoc] at ht
      exact ih (List.append_inj' ht rfl).1
  | request h ha hmsg ih =>
    rcases List.eq_nil_or_concat t₂ with rfl | ⟨t₂', x, rfl⟩
    · obtain ⟨rfl, he⟩ := List.append_inj' ht rfl
      obtain rfl := List.singleton_inj.mp he
      exact ⟨h, fun _ hx => by cases hx⟩
    · rw [List.concat_eq_append, ← List.cons_append, ← List.append_assoc] at ht
      exact ih (List.append_inj' ht rfl).1

/-! ### Where a running mesh has agents -/

section Running

variable {Q : Roster} {m : Mesh} {a : Address}

/-- A running mesh binds agents of the roster only. -/
theorem Mesh.Runs.find?_eq_none (hm : m.Runs Q) (ha : a ∉ Q.agents) : m.find? a = none := by
  cases hfind : m.find? a with
  | none => rfl
  | some n =>
    have hna : n.addr = a := by simpa using Array.find?_some hfind
    exact absurd (hna ▸ (hm.nodes n (Array.mem_of_find?_eq_some hfind)).mem) ha

theorem Mesh.Runs.mem_of_isBound (hm : m.Runs Q) (ha : m.isBound a = true) : a ∈ Q.agents := by
  obtain ⟨n, hn, hna⟩ := Array.any_eq_true'.mp ha
  have hna' : n.addr = a := by simpa using (Bool.and_eq_true_iff.mp hna).1
  exact hna' ▸ (hm.nodes n hn).mem

/-- A signal waiting first for an agent of a running mesh is among its signals, and the agent
is one of the roster. -/
theorem Mesh.Runs.signal_mem (hm : m.Runs Q) {x : Signal} (hx : m.nextSignal? a = some x) :
    a ∈ Q.agents ∧ x ∈ (m.view a).signals := by
  obtain ⟨f, hf, hfx⟩ := Option.bind_eq_some_iff.mp hx
  obtain ⟨n, hfind, hhead⟩ := Option.bind_eq_some_iff.mp hf
  have hna : n.addr = a := by simpa using Array.find?_some hfind
  refine ⟨hna ▸ (hm.nodes n (Array.mem_of_find?_eq_some hfind)).mem, ?_⟩
  rw [← standing_of_find? hfind]
  exact List.mem_filterMap.mpr ⟨f, List.mem_of_mem_head? hhead, hfx⟩

end Running

/-! ### The reading part of a stage -/

namespace Lockstep

variable {Q : Roster}

/-- The last barrier ended opened the reading part of a stage: it was the barrier a
single-entry round waits in before its sweep, or the first barrier of the graph stage. -/
def Course.Reading (C : Course) : Prop :=
  ∃ k, C.closed = k + 1 ∧ (C.kinds[k]? = some .stageBegin ∨ C.kinds[k]? = some .stageAlgProcess)

theorem Course.after_closed_of_ne {C : Course} {act : Act} (h : act ≠ .releases) :
    (C.after act).closed = C.closed := by
  cases act <;> first | rfl | exact absurd rfl h

/-- The barrier ends an agent has taken, after a step: one more for the agent taking the step,
if it took the end of a barrier. -/
theorem Ghost.ends_after (g : Ghost) (a : Address) (o : Option Signal) (act : Act) (c : Address) :
    ((g.after a o act).place c).ends =
      (g.place c).ends + if a = c ∧ o = some .endBarrier then 1 else 0 := by
  by_cases hac : a = c
  · subst hac
    rw [Ghost.after_place_self]
    by_cases ho : o = some .endBarrier
    · rw [ho, Place.after_end_ends, if_pos ⟨rfl, rfl⟩]
    · rw [Place.after_ends ho, if_neg fun h => ho h.2, Nat.add_zero]
  · rw [Ghost.after_place_ne (Ne.symm hac), if_neg fun h => hac h.1, Nat.add_zero]

/-- A step that ends no barrier leaves the reading part of a stage as it found it. -/
theorem Global.reading_of_after {C : Course} {ps : Place} {sync : Standing}
    (hG : Global Q C ps sync) {act : Act} (h : act ≠ .releases) (hr : (C.after act).Reading) :
    C.Reading := by
  obtain ⟨k, hk, hkind⟩ := hr
  rw [Course.after_closed_of_ne h] at hk
  obtain ⟨l, hl⟩ := C.kinds_after act
  -- the kind of the barrier just ended was already known
  have hlt : k < C.kinds.length := by
    rcases hG.kinds_length with hlen | ⟨hlen, -⟩ <;> omega
  refine ⟨k, hk, ?_⟩
  rwa [hl, List.getElem?_append_left hlt] at hkind

end Lockstep

namespace Step

variable {Q : Roster} {W W' : View} {a : Address} {o : Option Signal}

/-- Only an arrival ends a barrier, -/
theorem signal_of_releases (hs : Step Q a o .releases W W') : ∃ b, o = some (.arrived b) := by
  obtain ⟨rest, -, hmove⟩ := hs
  cases hmove
  exact ⟨_, rfl⟩

/-- and arrivals wait only at the synchronizer. -/
theorem sync_of_releases {g : Lockstep.Ghost} (hI : Lockstep.Inv Q g W) (ha : a ∈ Q.agents)
    (hs : Step Q a o .releases W W') : a = Q.sync := by
  obtain ⟨b, rfl⟩ := hs.signal_of_releases
  obtain ⟨rest, hsig, -⟩ := hs
  have hmem : Signal.arrived b ∈ (W a).signals := by
    rw [hsig]
    exact List.mem_cons_self
  exact ((hI.own a ha).placed _ hmem).1

end Step

namespace Lockstep.Inv

variable {Q : Roster} {g : Ghost} {W W' : View} {a : Address} {o : Option Signal} {act : Act}

/-- In the reading part of a stage every agent stages what it takes, and none waiting for
writes has the end of a barrier waiting: the end of the barrier after is not out yet. -/
theorem stages_of_reading (hI : Inv Q g W) (hr : g.course.Reading) {c : Address}
    (hc : c ∈ Q.agents) :
    (W c).phase.stages = true ∧
      (Signal.endBarrier ∈ (W c).signals → (W c).phase ≠ .stageProcessed) := by
  obtain ⟨k, hk, hkind⟩ := hr
  have hown := hI.own c hc
  -- the barrier after a sweep's or the graph stage's first is the wait for writes
  have hnext : ∀ q, g.course.kinds[k + 1]? = some q → q = .stageProcessed := fun q hq => by
    rcases hkind with hb | hb <;> cases hI.global.kinds_follow k _ q hb hq <;> rfl
  -- in the barrier just ended, an agent is at the sweep or in the graph stage
  have hcur : ∀ {p : Phase}, g.course.kinds[k]? = some p → p.stages = true := fun hp => by
    rcases hkind with hb | hb <;> rw [hb] at hp <;> cases hp <;> rfl
  rcases hown.ends with he | ⟨he, hw⟩
  · -- the agent has left the barrier: it has no end of one waiting
    have hnone : Signal.endBarrier ∉ (W c).signals := fun hmem => by
      have := hown.count_end_eq_zero he
      exact absurd (List.count_pos_iff.mpr hmem) (by omega)
    refine ⟨?_, fun hmem => absurd hmem hnone⟩
    cases hw : (g.place c).waits
    · -- still sweeping or computing
      have hres := hown.resumes hw
      have hlast : g.course.last (g.place c) = g.course.kinds[k]? := by
        simp [Course.last, he, hk]
      rw [hlast] at hres
      rcases hkind with hb | hb <;> rw [hb] at hres <;> simp only [Resumes] at hres <;>
        rw [hres] <;> rfl
    · -- reported, in the wait for writes
      have hp := hown.waits_kind hw
      rw [he, hk] at hp
      rw [hnext _ hp]
      rfl
  · -- the agent reported in the barrier just ended and has its end waiting
    have hp := hown.waits_kind hw
    rw [show (g.place c).ends = k by omega] at hp
    refine ⟨hcur hp, fun _ h => ?_⟩
    rcases hkind with hb | hb <;> rw [hb, h] at hp <;> cases hp

/-- A step pushes the end of a barrier to the agent taking it exactly when it ends the
barrier. -/
theorem releases_iff (hI : Inv Q g W) (hI' : Inv Q (g.after a o act) W') (ha : a ∈ Q.agents)
    (hs : Step Q a o act W W') :
    (W a).signals.count .endBarrier < (W' a).signals.count .endBarrier ↔ act = .releases := by
  -- the ends waiting and the ends taken add up to the barriers ended, before and after
  have h := (hI.own a ha).ends_count
  have h' := (hI'.own a ha).ends_count
  rw [Ghost.ends_after] at h'
  by_cases hr : act = .releases
  · subst hr
    obtain ⟨b, rfl⟩ := hs.signal_of_releases
    have hc : (g.after a (some (.arrived b)) .releases).course.closed = g.course.closed + 1 := rfl
    rw [if_neg fun h => by cases h.2] at h'
    simp only [iff_true]
    omega
  · have hc : (g.after a o act).course.closed = g.course.closed := Course.after_closed_of_ne hr
    simp only [hr, iff_false, not_lt]
    split at h' <;> omega

end Lockstep.Inv

namespace Lockstep.Own

variable {Q : Roster} {C : Course} {c : Address} {p : Place} {w : Standing}

end Lockstep.Own

/-! ### What a run keeps -/

section Snapshots

variable {Q : Roster}

/-- What a run with client requests keeps that made the moves `t` and reached `m`, for a ghost
`g` of it: the mesh runs the roster under the lock-step invariant; each agent took as many
barrier ends, and the moves ended as many barriers, as the ghost counts; and in the reading
part of a stage every store is as the move that ended the last barrier left it, a move of the
synchronizer with none ending a barrier since. -/
structure Snapshots (Q : Roster) (t : List Move) (m : Mesh) (g : Ghost) : Prop where
  runs : m.Runs Q
  inv : Inv Q g m.view
  ends : ∀ a ∈ Q.agents, t.countP (Move.TakesEnd a) = (g.place a).ends
  releases : t.countP Move.Releases = g.course.closed
  frozen : g.course.Reading → ∃ t₁ r t₂, t = t₁ ++ r :: t₂ ∧ r.agent = Q.sync ∧ r.Releases ∧
    t₂.countP Move.Releases = 0 ∧ r.after.stores = m.stores

variable {t : List Move} {m : Mesh} {g : Ghost}

/-- A move that ends no barrier and keeps every store keeps the snapshot. -/
theorem Snapshots.frozen_snoc (h : Snapshots Q t m g) {e : Move} {m' : Mesh}
    (hr : e.Releases = false) (hread : g.course.Reading) (hst : m'.stores = m.stores) :
    ∃ t₁ r t₂, t ++ [e] = t₁ ++ r :: t₂ ∧ r.agent = Q.sync ∧ r.Releases ∧
      t₂.countP Move.Releases = 0 ∧ r.after.stores = m'.stores := by
  obtain ⟨t₁, r, t₂, rfl, hsync, hrel, hnone, hstores⟩ := h.frozen hread
  refine ⟨t₁, r, t₂ ++ [e], by simp, hsync, hrel, ?_, hstores.trans hst.symm⟩
  rw [List.countP_append, hnone]
  simp [hr]

/-- A delivery keeps what a run keeps, for the ghost the step moves on. -/
theorem Snapshots.deliver (hQ : Q.Sound) (h : Snapshots Q t m g) (a : Address) :
    ∃ g', Snapshots Q (t ++ [⟨a, m.nextSignal? a, m, endState (handleNext a m)⟩])
      (endState (handleNext a m)) g' := by
  -- in the reading part of a stage the agent taking the frame keeps every store
  have hst : g.course.Reading → (endState (handleNext a m)).stores = m.stores := fun hread =>
    stores_handleNext h.runs (fun ha => (h.inv.stages_of_reading hread ha).1)
      fun ha hx => (h.inv.stages_of_reading hread ha).2 (h.runs.signal_mem hx).2
  obtain ⟨hm', hstep⟩ := handleNext_step hQ h.runs a
  rcases hstep with ⟨hnone, hW⟩ | ⟨ha, act, hs⟩
  · -- no signal was taken: the ghost stays
    have hr : Move.Releases ⟨a, m.nextSignal? a, m, endState (handleNext a m)⟩ = false := by
      simp [Move.Releases, hW]
    refine ⟨g, hm', hW ▸ h.inv, fun c hc => ?_, ?_, fun hread =>
      h.frozen_snoc hr hread (hst hread)⟩
    · rw [List.countP_append, h.ends c hc]
      simp [Move.TakesEnd, hnone]
    · rw [List.countP_append, h.releases]
      simp [hr]
  · have hI' := h.inv.step hQ ha hs
    have hrel := h.inv.releases_iff hI' ha hs
    refine ⟨g.after a (m.nextSignal? a) act, hm', hI', fun c hc => ?_, ?_, fun hread => ?_⟩
    · rw [List.countP_append, h.ends c hc, Ghost.ends_after]
      simp [Move.TakesEnd]
    · rw [List.countP_append, h.releases]
      by_cases hr : act = .releases
      · subst hr
        simp [Move.Releases, hrel]
        rfl
      · rw [show (g.after a (m.nextSignal? a) act).course.closed = g.course.closed from
          Course.after_closed_of_ne hr]
        simp [Move.Releases, hrel, hr]
    · by_cases hr : act = .releases
      · -- the move ends the barrier: the stores are as it leaves them
        subst hr
        exact ⟨t, _, [], rfl, hs.sync_of_releases h.inv ha, by simp [Move.Releases, hrel], rfl,
          rfl⟩
      · have hread' := h.inv.global.reading_of_after hr hread
        exact h.frozen_snoc (by simp [Move.Releases, hrel, hr]) hread' (hst hread')

/-- A client's write or read keeps what a run keeps, with the ghost as it was. -/
theorem Snapshots.request (h : Snapshots Q t m g) {a : Address} (ha : m.isBound a = true)
    {msg : Message} (hmsg : msg.Data) :
    Snapshots Q (t ++ [⟨a, none, m, endState (ask a msg.encode m)⟩])
      (endState (ask a msg.encode m)) g := by
  obtain ⟨hm', hW⟩ := quiet_ask_data hmsg a m.view m h.runs rfl
  have hr : Move.Releases ⟨a, none, m, endState (ask a msg.encode m)⟩ = false := by
    simp [Move.Releases, hW]
  refine ⟨hm', hW ▸ h.inv, fun c hc => ?_, ?_, fun hread => h.frozen_snoc hr hread
    (stores_ask (h.inv.stages_of_reading hread (h.runs.mem_of_isBound ha)).1 hmsg)⟩
  · rw [List.countP_append, h.ends c hc]
    simp [Move.TakesEnd]
  · rw [List.countP_append, h.releases]
    simp [hr]

/-- Every run keeps what a run keeps. -/
theorem Snapshots.run (hQ : Q.Sound) {m₀ : Mesh} (h₀ : Snapshots Q [] m₀ g) (ht : m₀.Run t m) :
    ∃ g', Snapshots Q t m g' := by
  induction ht with
  | nil => exact ⟨g, h₀⟩
  | deliver _ a ih =>
    obtain ⟨g', h'⟩ := ih
    exact h'.deliver hQ a
  | request _ ha hmsg ih =>
    obtain ⟨g', h'⟩ := ih
    exact ⟨g', h'.request ha hmsg⟩

/-- A PROCESS_BROADCAST asked of the synchronizer while every agent is idle starts a run. -/
theorem Snapshots.start (hQ : Q.Sound) {m₀ : Mesh} (hm₀ : m₀.Runs Q)
    (hidle : ∀ a ∈ Q.agents, m₀.view a = Standing.idle) :
    Snapshots Q [] (endState (ask Q.sync Message.processBroadcast.encode m₀)) Ghost.start := by
  have h := Tracks.start hQ hm₀ hidle
  exact ⟨h.runs, h.inv, fun _ _ => rfl, rfl, fun hr => absurd hr.choose_spec.1 (Nat.succ_ne_zero _).symm⟩

end Snapshots

/-! ### Sweeps and rounds read the released stores -/

section Released

variable {Q : Roster}

end Released

end ShardStore
