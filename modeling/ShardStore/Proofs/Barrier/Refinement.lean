import ShardStore.Proofs.Barrier.View
/-!
Every step of a mesh running a roster is a step of the barrier protocol.

Each handler of a protocol message changes the view as one of the moves of `Moves` says, for the
signal the message carries, whether it finishes or fails part way. The lemmas below say so one
handler at a time, through the views the handler's parts lead to: a report to the synchronizer,
which may not decode; an arrival; a sweep, a commit, the end of a round; the synchronizer's
tallies, its answers to every agent and its decision; the graph stage's vertex lists and rounds.
A frame that does not decode, or carries no signal, changes nothing the protocol reads, unless
it is the last write an agent waited for.
-/

namespace ShardStore

namespace Node.Runs

variable {Q : Roster} {n : Node}

theorem synchronizer (h : n.Runs Q) (hQ : Q.Sound) : n.member.synchronizer = .ok Q.sync := by
  show n.member.ring.owner Key.sync = _
  rw [h.ring]
  exact hQ.owner_sync

theorem isSynchronizer (h : n.Runs Q) (hQ : Q.Sound) :
    n.member.isSynchronizer = .ok (Q.sync == n.addr) := by
  unfold Member.isSynchronizer Member.hasOwnership
  rw [show n.member.owner Key.sync = .ok Q.sync from h.synchronizer hQ]
  rfl

theorem numNeighbors (h : n.Runs Q) : n.member.numNeighbors = Q.agents.length := by
  rw [Member.numNeighbors, h.agents]

end Node.Runs

/-- Checking whether the count is met arrives, and forgets the count, or changes nothing of it. -/
theorem Wait.tryArrive_cases (w : Wait) :
    (w.tryArrive.1 = true ∧ w.expected.isSome = true ∧ w.tryArrive.2.expected = none) ∨
      (w.tryArrive.1 = false ∧ w.tryArrive.2.expected = w.expected) := by
  unfold Wait.tryArrive
  split
  · split <;> simp_all
  · simp_all

theorem Wait.recordRecv_cases (w : Wait) :
    (w.recordRecv.1 = true ∧ w.expected.isSome = true ∧ w.recordRecv.2.expected = none) ∨
      (w.recordRecv.1 = false ∧ w.recordRecv.2.expected = w.expected) :=
  Wait.tryArrive_cases _

/-- Told the count, the agent arrives and forgets it, or keeps it and waits. -/
theorem Wait.expect_cases (w : Wait) (k : Nat) :
    ((w.expect k).1 = true ∧ (w.expect k).2.expected = none) ∨
      ((w.expect k).1 = false ∧ (w.expect k).2.expected = some k) := by
  rcases Wait.tryArrive_cases { w with expected := some k } with ⟨h1, -, h2⟩ | ⟨h1, h2⟩
  · exact .inl ⟨h1, h2⟩
  · exact .inr ⟨h1, h2⟩

/-- A round keeps the engine set up or not, as it was. -/
theorem Engine.round_ready (e : Engine) (look : Lookup) : (e.round look).1.ready = e.ready := by
  unfold Engine.round
  dsimp only
  split <;> rfl

/-- Setting up leaves an engine set up if it was. -/
theorem Engine.setup_ready (e : Engine) (s : EntryStore) (fs : List GroupFilter) (look : Lookup) :
    (e.setup s fs look).1.ready = (e.ready || (e.setup s fs look).1.ready) := by
  unfold Engine.setup
  dsimp only
  split <;> simp

theorem Exchange.onCompute_vertexReports (x : Exchange) (b : Address) (i : Nat) (a : Bool) :
    (x.onCompute b i a).vertexReports = x.vertexReports := by
  unfold Exchange.onCompute
  split <;> rfl

theorem Exchange.complete_vertexReports (x : Exchange) (i k : Nat) :
    (x.complete i k).2.vertexReports = x.vertexReports := by
  unfold Exchange.complete
  split
  · split <;> rfl
  · rfl

/-- What a node's standing reads of a new tally, exchange or engine. -/
theorem Node.standing_with_tally (n : Node) (t : Tally) :
    ({ n with tally := t } : Node).standing =
      { n.standing with reported := t.reported, arrived := t.arrived, tallyAgain := t.again } :=
  rfl

theorem Node.standing_with_exchange (n : Node) (x : Exchange) :
    ({ n with exchange := x } : Node).standing = { n.standing with collected := x.vertexReports } :=
  rfl

theorem Node.standing_with_engine (n : Node) (e : Engine) :
    ({ n with engine := e } : Node).standing = { n.standing with ready := e.ready } :=
  rfl

open Agent Mesh Lockstep

section AgentSide

variable {Q : Roster} {W : View} {me : Address}

/-- The agent reports its flag to the synchronizer; the report may not decode. -/
theorem leads_startBarrierWait (hQ : Q.Sound) (hme : me ∈ Q.agents) :
    Leads Q W (startBarrierWait me) fun r W' =>
      r = some () ∧ ∃ o, Signal.Lossy (.report me (W me).again) o ∧ W' = W.post Q.sync o := by
  unfold startBarrierWait
  refine Leads.nodeOf_bind hme fun n hn _ hst => Leads.lift_ok_bind (hn.synchronizer hQ) ?_
  -- the ledger starts over, which the protocol does not read
  split
  refine Leads.seq (leads_change_keep (fun _ => ⟨rfl, rfl, rfl⟩) fun _ _ => rfl) ?_
  refine Leads.mono (leads_send hQ.sync_mem (by rfl)) fun _ _ h => ⟨h.1, _, ?_, h.2⟩
  rw [← hst]
  exact Signal.ofFrame?_startBarrierWait me n.again _

/-- The local work of a stage is done: the agent moves to the wait for writes and reports. -/
theorem leads_finishStage (hQ : Q.Sound) (hme : me ∈ Q.agents) :
    Leads Q W (finishStage me) fun r W' =>
      r = some () ∧ ∃ o, Signal.Lossy (.report me (W me).again) o ∧
        W' = (W.set me fun w => { w with phase := .stageProcessed }).post Q.sync o := by
  unfold finishStage
  refine Leads.seq (leads_change hme (g := fun w => { w with phase := .stageProcessed })
    (fun _ => ⟨rfl, rfl, rfl⟩) fun _ _ => rfl) ?_
  exact Leads.mono (leads_startBarrierWait hQ hme) fun _ _ h => by
    obtain ⟨hr, o, ho, hW'⟩ := h
    exact ⟨hr, o, by simpa using ho, hW'⟩

/-- The agent tells the synchronizer it has arrived. -/
theorem leads_arrive (hQ : Q.Sound) (hme : me ∈ Q.agents) :
    Leads Q W (arrive me) fun r W' => r = some () ∧ W' = W.post Q.sync (some (.arrived me)) := by
  unfold arrive
  refine Leads.nodeOf_bind hme fun n hn _ _ => Leads.lift_ok_bind (hn.synchronizer hQ) ?_
  refine Leads.mono (leads_send hQ.sync_mem (by rfl)) fun _ _ h => ⟨h.1, ?_⟩
  rw [h.2, Signal.ofFrame?_atBarrier]

/-- A write received from another agent is counted: the agent arrives if that was the last it
was told to expect, and nothing the protocol reads changes otherwise. -/
theorem leads_countRecv (hQ : Q.Sound) (hme : me ∈ Q.agents) :
    Leads Q W (countRecv me) fun r W' => r = some () ∧ ∃ act, Moves Q me none act W W' := by
  unfold countRecv
  refine Leads.nodeOf_bind hme fun n _ _ hst => ?_
  split
  rename_i done wait hw
  rcases Wait.recordRecv_cases n.wait with ⟨hd, hs, he⟩ | ⟨hd, he⟩ <;> rw [hw] at hd he <;>
    simp only at hd he <;> subst hd
  · -- the count is met: the agent forgets it and arrives
    refine Leads.seq (leads_change hme (g := fun w => { w with expects := false })
      (fun _ => ⟨rfl, rfl, rfl⟩) fun _ _ => by simp [Node.standing, he]) ?_
    rw [if_pos rfl]
    refine Leads.mono (leads_arrive hQ hme) fun _ _ h => ⟨h.1, .quiet, ?_⟩
    rw [h.2]
    exact Moves.arrive W (by rw [← hst]; exact hs)
  · -- still waiting, for the count or for more writes
    refine Leads.seq (leads_change_keep (fun _ => ⟨rfl, rfl, rfl⟩) fun n' hn' => ?_) ?_
    · -- the count it waits for, if any, is the one it had
      have hx : n'.wait.expected.isSome = n.wait.expected.isSome :=
        congrArg Standing.expects (hn'.trans hst.symm)
      simp [Node.standing, he, hx]
    exact leads_pure ⟨rfl, _, Moves.quiet W⟩

/-- A write pushed by another agent is placed, and counted even if placing it failed. -/
theorem leads_onMutation (hQ : Q.Sound) (hme : me ∈ Q.agents) (mu : Mutation) :
    Leads Q W (onMutation me mu .peer) fun _ W' => ∃ act, Moves Q me none act W W' := by
  unfold onMutation
  refine Quiet.leads_bind (quiet_tryCatch ((quiet_place 4 mu false).bind fun _ => quiet_pure)
    fun _ => quiet_pure) (fun failed => ?_) ⟨_, Moves.quiet W⟩
  dsimp only
  rw [if_pos (show (Origin.peer == Origin.peer) = true from rfl)]
  refine (leads_countRecv hQ hme).bind (fun _ _ hW' => ?_) fun _ h => by cases h.1
  split
  · exact leads_throw hW'.2
  · exact leads_pure hW'.2

/-- Pushing a message of the protocol to every agent of the roster. -/
theorem leads_broadcast (hme : me ∈ Q.agents) {msg : Message} (hmsg : msg.Protocol) :
    Leads Q W (broadcast me msg) fun r W' =>
      r = some () ∧ W' = W.postAll Q.agents fun _ => Signal.ofFrame? msg.encode := by
  unfold broadcast
  refine Leads.nodeOf_bind hme fun n hn _ _ => ?_
  rw [hn.agents]
  exact leads_forM_send (fun _ hd => hd) fun _ => hmsg

/-- A command starts a single-entry round: the agent moves to it, reporting it wrote nothing. -/
theorem leads_onProcess (hQ : Q.Sound) (hme : me ∈ Q.agents) (fresh : Bool) :
    Leads Q W (onProcess me fresh) fun _ W' => Moves Q me (some .process) .reports W W' := by
  have hgo : Leads Q W (do
      change me fun n => { n with phase := .stageBegin, again := false }
      startBarrierWait me) fun _ W' => Moves Q me (some .process) .reports W W' := by
    refine Leads.seq (leads_change hme (g := fun w => { w with phase := .stageBegin, again := false })
      (fun _ => ⟨rfl, rfl, rfl⟩) fun _ _ => rfl) ?_
    refine Leads.mono (leads_startBarrierWait hQ hme) fun _ _ h => ?_
    obtain ⟨-, o, ho, rfl⟩ := h
    exact Moves.process W o (by simpa using ho)
  unfold onProcess
  dsimp only
  split
  · -- the synchronizer's run flags are not the protocol's
    refine Leads.nodeOf_bind hme fun n hn _ _ => Leads.lift_ok_bind (hn.isSynchronizer hQ) ?_
    split
    · exact Leads.seq (leads_change_keep (fun _ => ⟨rfl, rfl, rfl⟩) fun _ _ => rfl) hgo
    · exact hgo
  · exact hgo

/-- A command starts the graph stage: the agent moves to it, reporting it wrote nothing. -/
theorem leads_onAlgProcess (hQ : Q.Sound) (hme : me ∈ Q.agents) :
    Leads Q W (onAlgProcess me) fun _ W' => Moves Q me (some .algProcess) .reports W W' := by
  unfold onAlgProcess
  refine Leads.seq (leads_change hme (g := fun w => { w with phase := .stageAlgProcess, again := false })
    (fun _ => ⟨rfl, rfl, rfl⟩) fun _ _ => rfl) ?_
  refine Leads.mono (leads_startBarrierWait hQ hme) fun _ _ h => ?_
  obtain ⟨-, o, ho, rfl⟩ := h
  exact Moves.algProcess W o (by simpa using ho)

end AgentSide

/-! ### The end of a barrier -/

section StageEnds

variable {Q : Roster} {W : View} {me : Address}

/-- The sweep of a single-entry round: it decides whether the agent wrote, routes the writes,
and reports. A sweep that fails, or a write that cannot be routed, stops it on the way. -/
theorem leads_runSweep (hQ : Q.Sound) (hme : me ∈ Q.agents) (h : (W me).phase = .stageBegin) :
    Leads Q W (runSweep me) fun _ W' => ∃ act, Moves Q me (some .endBarrier) act W W' := by
  -- stopped before the flag is set, the agent stands where it stood
  have hstay : Moves Q me (some .endBarrier) .quiet W W := by
    have h' := Moves.sweep (Q := Q) W h (W me).again
    rwa [View.set_of_eq (f := fun w => { w with again := (W me).again }) rfl] at h'
  unfold runSweep
  refine Leads.get_bind fun m _ _ => Leads.nodeOf_bind hme fun n _ _ _ =>
    Leads.lift_bind (fun w _ => ?_) ⟨_, hstay⟩
  refine Leads.seq (leads_change hme (g := fun s => { s with again := !w.mutations.isEmpty })
    (fun _ => ⟨rfl, rfl, rfl⟩) fun _ _ => rfl) ?_
  refine Quiet.leads_bind (quiet_routeAll _) (fun _ => ?_) ⟨_, Moves.sweep W h _⟩
  refine Leads.mono (leads_finishStage hQ hme) fun _ _ h' => ?_
  obtain ⟨-, o, ho, rfl⟩ := h'
  rw [View.set_set]
  exact ⟨_, Moves.swept W h (!w.mutations.isEmpty) o (by simpa using ho)⟩

/-- The closing stage: the agent commits what it staged, routes the wakes, takes the writes it
held back and reports. A failure on the way stops it in the closing stage. -/
theorem leads_closeStage (hQ : Q.Sound) (hme : me ∈ Q.agents) (h : (W me).phase = .stageProcessed) :
    Leads Q W (closeStage me) fun _ W' => ∃ act, Moves Q me (some .endBarrier) act W W' := by
  have hclose := Moves.close (Q := Q) W h
  unfold closeStage
  refine Leads.seq (leads_change hme (g := fun w => { w with phase := .stageClosing })
    (fun _ => ⟨rfl, rfl, rfl⟩) fun _ _ => rfl) ?_
  refine Quiet.leads_bind quiet_onShard (fun report => ?_) ⟨_, hclose⟩
  refine Quiet.leads_bind (quiet_routeAll _) (fun _ => ?_) ⟨_, hclose⟩
  refine Quiet.leads_bind quiet_nodeOf (fun n => ?_) ⟨_, hclose⟩
  dsimp only
  refine Leads.seq (leads_change_keep (fun _ => ⟨rfl, rfl, rfl⟩) fun _ _ => rfl) ?_
  refine Quiet.leads_bind (quiet_forM fun mu _ => quiet_accept (fun mu => quiet_route mu) mu)
    (fun _ => ?_) ⟨_, hclose⟩
  refine Leads.mono (leads_startBarrierWait hQ hme) fun _ _ h' => ?_
  obtain ⟨-, o, ho, rfl⟩ := h'
  exact ⟨_, Moves.closed W h o (by simpa using ho)⟩

/-- The synchronizer's decision: the flag of the reports is cleared and every agent is told
what comes next, if anything. -/
theorem leads_decideNext (hme : me ∈ Q.agents) :
    Leads Q W (decideNext me) fun r W' => r = some () ∧ ∃ next,
      Signal.Decides (W me).tallyAgain next ∧
        W' = (W.set me fun w => { w with tallyAgain := false }).postAll Q.agents fun _ => next := by
  unfold decideNext
  refine Leads.nodeOf_bind hme fun n _ _ hst => ?_
  have hagain : n.tally.again = (W me).tallyAgain := congrArg Standing.tallyAgain hst
  dsimp only [Tally.takeAgain]
  refine Leads.seq (leads_change hme (g := fun w => { w with tallyAgain := false })
    (fun _ => ⟨rfl, rfl, rfl⟩) fun _ hn' => by rw [Node.standing_with_tally, hn', ← hst]; rfl) ?_
  -- the run flags the synchronizer keeps are not the protocol's
  split
  · rename_i ha
    refine Leads.seq (leads_change_keep (fun _ => ⟨rfl, rfl, rfl⟩) fun _ _ => rfl) ?_
    refine Leads.mono (leads_broadcast hme rfl) fun _ _ h' => ⟨h'.1, _, .inl ⟨?_, rfl⟩, ?_⟩
    · rw [← hagain, ha]
    · rw [h'.2, Signal.ofFrame?_process]
  · rename_i ha
    have hna : (W me).tallyAgain = false := by rw [← hagain]; simpa using ha
    split
    · refine Leads.seq (leads_change_keep (fun _ => ⟨rfl, rfl, rfl⟩) fun _ _ => rfl) ?_
      refine Leads.mono (leads_broadcast hme rfl) fun _ _ h' =>
        ⟨h'.1, _, .inr ⟨hna, .inl rfl⟩, ?_⟩
      rw [h'.2, Signal.ofFrame?_algProcess]
    · refine Leads.mono (leads_change_keep (fun _ => ⟨rfl, rfl, rfl⟩) fun _ _ => rfl) fun _ _ h' =>
        ⟨h'.1, none, .inr ⟨hna, .inr rfl⟩, ?_⟩
      rw [h'.2, View.postAll_none]

/-- After the closing barrier an agent goes on or goes idle; the synchronizer also decides. -/
theorem leads_afterClose (hQ : Q.Sound) (hme : me ∈ Q.agents) (h : (W me).phase = .stageClosing) :
    Leads Q W (afterClose me) fun _ W' => ∃ act, Moves Q me (some .endBarrier) act W W' := by
  unfold afterClose
  refine Leads.nodeOf_bind hme fun n hn hna _ => ?_
  refine Leads.seq (leads_change hme
    (g := fun w => { w with phase := if w.again then .stageBegin else .preload })
    (fun _ => ⟨rfl, rfl, rfl⟩) fun _ _ => rfl) ?_
  refine Leads.lift_ok_bind (hn.isSynchronizer hQ) ?_
  split
  · rename_i hs
    have hs : me = Q.sync := by rw [← hna]; exact (beq_iff_eq.mp hs).symm
    refine Leads.mono (leads_decideNext hme) fun _ _ h' => ?_
    obtain ⟨-, next, hnext, rfl⟩ := h'
    rw [View.set_set]
    exact ⟨_, Moves.decide W h hs next (by simpa using hnext)⟩
  · rename_i hs
    have hs : me ≠ Q.sync := fun h' => hs (by rw [hna, ← h']; exact beq_self_eq_true _)
    exact leads_pure ⟨_, Moves.reopen W h hs⟩

/-- In the graph stage, the agent sends every agent the vertices it owns of its keys; if an
owner cannot be found, it sends nothing. -/
theorem leads_sendVertices (hme : me ∈ Q.agents) (h : (W me).phase = .stageAlgProcess) :
    Leads Q W (sendVertices me) fun _ W' => ∃ act, Moves Q me (some .endBarrier) act W W' := by
  have hnone : Moves Q me (some .endBarrier) .quiet W W := by
    have h' := Moves.sendVertices (Q := Q) W h (fun _ => none) fun _ => .inl rfl
    rwa [View.postAll_none] at h'
  unfold sendVertices
  refine Leads.nodeOf_bind hme fun n hn _ _ => ?_
  refine Quiet.leads_bind (quiet_foldlM fun _ _ => quiet_lift.bind fun _ => quiet_pure)
    (fun byOwner => ?_) ⟨_, hnone⟩
  rw [hn.agents]
  refine Leads.mono (leads_forM_send (fun _ hd => hd) fun _ => rfl) fun _ _ h' => ⟨.quiet, ?_⟩
  rw [h'.2]
  exact Moves.sendVertices W h _ fun _ => Signal.ofFrame?_algVertices me _

/-- The end of a barrier moves the agent on as its stage says; an idle agent refuses it. -/
theorem leads_onEndBarrier (hQ : Q.Sound) (hme : me ∈ Q.agents) :
    Leads Q W (onEndBarrier me) fun _ W' => ∃ act, Moves Q me (some .endBarrier) act W W' := by
  unfold onEndBarrier
  -- the wait forgets its arrival, which the protocol does not read
  refine Leads.seq (leads_change_keep (fun _ => ⟨rfl, rfl, rfl⟩) fun _ _ => rfl) ?_
  refine Leads.nodeOf_bind hme fun n _ _ hst => ?_
  have hp : n.phase = (W me).phase := congrArg Standing.phase hst
  split
  · rename_i hpre
    exact leads_throw ⟨_, Moves.endIdle W (hp ▸ hpre)⟩
  · rename_i hb
    exact leads_runSweep hQ hme (hp ▸ hb)
  · rename_i hb
    exact leads_closeStage hQ hme (hp ▸ hb)
  · rename_i hb
    exact leads_afterClose hQ hme (hp ▸ hb)
  · rename_i hb
    exact leads_sendVertices hme (hp ▸ hb)

end StageEnds

/-! ### The synchronizer -/

section Synchronizer

variable {Q : Roster} {W : View} {me : Address}

/-- A report is tallied; the last one makes the synchronizer tell every agent what to expect. -/
theorem leads_onBarrierReport (hme : me ∈ Q.agents) (b : Address) (g : Bool)
    (sent : List (Address × UInt64)) :
    Leads Q W (onBarrierReport me b g sent) fun _ W' =>
      ∃ act, Moves Q me (some (.report b g)) act W W' := by
  unfold onBarrierReport
  refine Leads.nodeOf_bind hme fun n hn _ hst => ?_
  have hr : n.tally.reported = (W me).reported := congrArg Standing.reported hst
  split
  rename_i dist tally hrep
  unfold Tally.report at hrep
  rw [hn.agents] at hrep
  dsimp only at hrep
  split at hrep
  · -- not every agent has reported yet
    rename_i hlt
    obtain ⟨rfl, rfl⟩ := Prod.mk.inj hrep
    refine Leads.seq (leads_change hme
      (g := fun w => { w with reported := Address.insertSorted b w.reported,
                              tallyAgain := w.tallyAgain || g })
      (fun _ => ⟨rfl, rfl, rfl⟩) fun _ hn' => by rw [Node.standing_with_tally, hn', ← hst]; rfl) ?_
    exact leads_pure ⟨_, Moves.tally W b g (hr ▸ hlt)⟩
  · -- the last report: every agent is sent its count
    rename_i hle
    obtain ⟨rfl, rfl⟩ := Prod.mk.inj hrep
    refine Leads.seq (leads_change hme
      (g := fun w => { w with reported := [], arrived := [], tallyAgain := w.tallyAgain || g })
      (fun _ => ⟨rfl, rfl, rfl⟩) fun _ hn' => by rw [Node.standing_with_tally, hn', ← hst]; rfl) ?_
    refine Leads.mono (leads_forM_post (d := Prod.fst) (o := fun _ => some .dist)
      fun x hx V => ?_) fun _ _ h' => ⟨.deals, ?_⟩
    · obtain ⟨a, e⟩ := x
      obtain ⟨a', ha', hx'⟩ := List.mem_map.mp hx
      obtain rfl : a' = a := congrArg Prod.fst hx'
      exact Leads.mono (leads_send ha' (by rfl)) fun _ _ h'' =>
        ⟨h''.1, by rw [h''.2, Signal.ofFrame?_barrierMsgDist]⟩
    · rw [h'.2]
      simpa only [List.map_map, Function.comp_def, List.map_id'] using
        Moves.deal W b g (hr ▸ Nat.le_of_not_lt hle)

/-- An arrival is gathered; the last one ends the barrier at every agent. -/
theorem leads_onAtBarrier (hme : me ∈ Q.agents) (b : Address) :
    Leads Q W (onAtBarrier me b) fun _ W' => ∃ act, Moves Q me (some (.arrived b)) act W W' := by
  unfold onAtBarrier
  refine Leads.nodeOf_bind hme fun n hn _ hst => ?_
  have harr : n.tally.arrived = (W me).arrived := congrArg Standing.arrived hst
  split
  rename_i all tally harrive
  unfold Tally.arrive at harrive
  rw [hn.numNeighbors] at harrive
  dsimp only at harrive
  split at harrive
  · rename_i hlt
    obtain ⟨rfl, rfl⟩ := Prod.mk.inj harrive
    refine Leads.seq (leads_change hme
      (g := fun w => { w with arrived := Address.insertSorted b w.arrived })
      (fun _ => ⟨rfl, rfl, rfl⟩) fun _ hn' => by rw [Node.standing_with_tally, hn', ← hst]; rfl) ?_
    exact leads_pure ⟨_, Moves.gather W b (harr ▸ hlt)⟩
  · rename_i hle
    obtain ⟨rfl, rfl⟩ := Prod.mk.inj harrive
    refine Leads.seq (leads_change hme (g := fun w => { w with arrived := [] })
      (fun _ => ⟨rfl, rfl, rfl⟩) fun _ hn' => by rw [Node.standing_with_tally, hn', ← hst]; rfl) ?_
    refine Leads.mono (leads_broadcast hme rfl) fun _ _ h' => ⟨.releases, ?_⟩
    rw [h'.2, Signal.ofFrame?_endBarrier]
    exact Moves.release W b (harr ▸ Nat.le_of_not_lt hle)

end Synchronizer

/-! ### The graph stage -/

section GraphStage

variable {Q : Roster} {W : View} {me : Address}

/-- The writes of vertex programs are routed; any write raises the agent's flag. -/
theorem leads_routeEffects (hme : me ∈ Q.agents) (effects : List Mutation) :
    Leads Q W (routeEffects me effects) fun _ W' =>
      W' = W.set me fun w => { w with again := w.again || !effects.isEmpty } := by
  unfold routeEffects
  exact Leads.seq (leads_change hme (g := fun w => { w with again := w.again || !effects.isEmpty })
    (fun _ => ⟨rfl, rfl, rfl⟩) fun _ _ => rfl) (quiet_routeAll effects _)

/-- A graph round may raise the agent's flag, and changes nothing else the protocol reads: its
reports to the other agents carry no signal. -/
theorem leads_algRound (hme : me ∈ Q.agents) :
    Leads Q W (algRound me) fun _ W' => ∃ g, W' = W.set me fun w => { w with again := w.again || g } := by
  have hstay : ∃ g, W = W.set me fun w => { w with again := w.again || g } :=
    ⟨false, (View.set_of_eq (by simp)).symm⟩
  unfold algRound
  refine Leads.get_bind fun m _ _ => Leads.nodeOf_bind hme fun n _ _ hst => ?_
  split
  rename_i e effects r hround
  have hready : e.ready = n.engine.ready := by
    rw [← Engine.round_ready n.engine (m.lookupFor n), hround]
  refine Leads.seq (leads_change_keep (fun _ => ⟨rfl, rfl, rfl⟩) fun _ hn' => by
    rw [Node.standing_with_engine, hready, hn', ← hst]; rfl) ?_
  refine Leads.lift_bind (fun out _ => ?_) hstay
  refine (leads_routeEffects hme _).bind (fun _ V hV => ?_) fun _ hV => ⟨_, hV⟩
  -- the round's reports go to every agent and carry no signal
  refine Leads.mono (P := fun _ W' => W' = V) ?_ fun _ _ h => ⟨_, h.trans hV⟩
  refine (quiet_nodeOf.bind fun n => ?_) V
  refine Quiet.bind ?_ fun _ => quiet_forM fun _ _ =>
    quiet_send (by rfl) (Signal.ofFrame?_algInternalCompute me out.active out.iter.toUInt64 _)
  rw [← Array.foldlM_toList]
  exact quiet_foldlM fun _ _ => quiet_lift.bind fun _ => quiet_pure

/-- A vertex list is collected; once every agent's is in, the engine is set up and runs its first
round. -/
theorem leads_onAlgVertices (hme : me ∈ Q.agents) (b : Address) (vs : List Vertex) :
    Leads Q W (onAlgVertices me b vs) fun _ W' => ∃ act, Moves Q me (some (.vertices b)) act W W' := by
  unfold onAlgVertices
  refine Leads.seq (leads_change_keep (fun _ => ⟨rfl, rfl, rfl⟩) fun _ _ => rfl) ?_
  refine Leads.nodeOf_bind hme fun n hn _ hst => ?_
  have hc : n.exchange.vertexReports = (W me).collected := congrArg Standing.collected hst
  dsimp only [Exchange.onVertices]
  refine Leads.seq (leads_change hme
    (g := fun w => { w with collected := Address.insertSorted b w.collected })
    (fun _ => ⟨rfl, rfl, rfl⟩) fun _ hn' => by rw [Node.standing_with_exchange, hn', ← hst]; rfl) ?_
  rw [hn.numNeighbors, hc]
  split
  · rename_i hall
    have hall : (Address.insertSorted b (W me).collected).length = Q.agents.length := by
      simpa using hall
    refine Leads.get_bind fun m _ _ => Leads.nodeOf_bind hme fun n2 _ _ hst2 => ?_
    generalize hsetup : n2.engine.setup n2.shard.store n2.shard.filters.groups (m.lookupFor n2) = p
    obtain ⟨e, r⟩ := p
    dsimp only
    have hready : e.ready = (n2.engine.ready || e.ready) := by
      have h := Engine.setup_ready n2.engine n2.shard.store n2.shard.filters.groups (m.lookupFor n2)
      rwa [hsetup] at h
    refine Leads.seq (leads_change hme (g := fun w => { w with ready := w.ready || e.ready })
      (fun _ => ⟨rfl, rfl, rfl⟩) fun _ hn' => ?_) ?_
    · rw [Node.standing_with_engine, hn', ← hst2]
      exact congrArg (fun x => { n2.standing with ready := x }) hready
    -- a set-up that fails stops the agent with its engine as set up so far
    refine Leads.lift_bind (fun _ _ => ?_)
      ⟨_, by simpa [View.set_set] using Moves.collectAll (Q := Q) W b hall e.ready false⟩
    refine (leads_routeEffects hme []).bind (fun _ V hV => ?_) fun V hV => ⟨.quiet, ?_⟩
    · refine Leads.mono (leads_algRound hme) fun _ _ h' => ?_
      obtain ⟨g', rfl⟩ := h'
      subst hV
      exact ⟨_, by simpa [View.set_set] using Moves.collectAll (Q := Q) W b hall e.ready g'⟩
    · subst hV
      simpa [View.set_set] using Moves.collectAll (Q := Q) W b hall e.ready false
  · rename_i hall
    have hne : (Address.insertSorted b (W me).collected).length ≠ Q.agents.length := by
      simpa using hall
    exact leads_pure ⟨_, Moves.collect W b hne⟩

/-- A round report is taken; once every agent has reported the round, the next one runs, and
may write, or the graph stage ends for the agent, which reports. -/
theorem leads_onAlgCompute (hQ : Q.Sound) (hme : me ∈ Q.agents) (b : Address) (active : Bool)
    (iter : UInt64) (ms : List VertexMessage) :
    Leads Q W (onAlgCompute me b active iter ms) fun _ W' => ∃ act, Moves Q me none act W W' := by
  unfold onAlgCompute
  refine Leads.seq (leads_change_keep (fun _ => ⟨rfl, rfl, rfl⟩) fun n' _ => by
    simp [Node.standing, Exchange.onCompute_vertexReports, Engine.deliver]) ?_
  refine Leads.nodeOf_bind hme fun n _ _ hst => ?_
  have hr : n.engine.ready = (W me).ready := congrArg Standing.ready hst
  split
  · rename_i hready
    split
    rename_i r x hcomplete
    have hx : x.vertexReports = n.exchange.vertexReports := by
      rw [← Exchange.complete_vertexReports n.exchange n.engine.iter n.member.numNeighbors,
        hcomplete]
    refine Leads.seq (leads_change_keep (fun _ => ⟨rfl, rfl, rfl⟩) fun _ hn' => by
      rw [Node.standing_with_exchange, hx, hn', ← hst]; rfl) ?_
    split
    · exact leads_pure ⟨_, Moves.quiet W⟩
    · -- the next round runs; it writes or it does not
      refine Leads.mono (leads_algRound hme) fun _ _ h' => ?_
      obtain ⟨g, rfl⟩ := h'
      cases g
      · exact ⟨_, by simpa [View.set_of_eq] using Moves.quiet (Q := Q) (a := me) W⟩
      · exact ⟨_, by simpa using Moves.compute (Q := Q) W (hr ▸ hready)⟩
    · -- the stage is over for this agent: the engine is torn down and the agent reports
      refine Leads.seq (leads_change hme (g := fun w => { w with ready := false, collected := [] })
        (fun _ => ⟨rfl, rfl, rfl⟩) fun _ _ => rfl) ?_
      refine Leads.mono (leads_finishStage hQ hme) fun _ _ h' => ?_
      obtain ⟨-, o, ho, rfl⟩ := h'
      rw [View.set_set]
      exact ⟨_, Moves.finish W (hr ▸ hready) o (by simpa using ho)⟩
  · exact leads_pure ⟨_, Moves.quiet W⟩

end GraphStage

/-! ### Handling a frame -/

section Handling

variable {Q : Roster} {W : View} {me : Address}

/-- Told how many writes to expect, the agent waits for them, or has them already and
arrives. -/
theorem leads_expect (hQ : Q.Sound) (hme : me ∈ Q.agents) (call : Call) (k : UInt64) :
    Leads Q W (handle call me (.barrierMsgDist k) .peer) fun _ W' =>
      ∃ act, Moves Q me (some .dist) act W W' := by
  refine Leads.nodeOf_bind hme fun n _ _ _ => ?_
  split
  rename_i done wait hw
  rcases Wait.expect_cases n.wait k.toNat with ⟨hd, he⟩ | ⟨hd, he⟩ <;> rw [hw] at hd he <;>
    simp only at hd he <;> subst hd
  · refine Leads.seq (leads_change hme (g := fun w => { w with expects := false })
      (fun _ => ⟨rfl, rfl, rfl⟩) fun _ _ => by simp [Node.standing, he]) ?_
    rw [if_pos rfl]
    refine Leads.then_pure (Leads.mono (leads_arrive hQ hme) fun _ _ h => ⟨.quiet, ?_⟩)
    rw [h.2]
    exact Moves.expectArrive W
  · refine Leads.seq (leads_change hme (g := fun w => { w with expects := true })
      (fun _ => ⟨rfl, rfl, rfl⟩) fun _ _ => by simp [Node.standing, he]) ?_
    rw [if_neg Bool.false_ne_true]
    exact leads_pure ⟨_, Moves.expect W⟩

/-- Every message of the protocol an agent handles moves the view as the protocol says, for the
signal the message carries, however the handler ends. -/
theorem leads_handle (hQ : Q.Sound) (hme : me ∈ Q.agents) (call : Call) {msg : Message}
    (hmsg : msg.Protocol) :
    Leads Q W (handle call me msg .peer) fun _ W' => ∃ act, Moves Q me msg.signal? act W W' := by
  cases msg
  case addEntry | addTag | removeTag | updateValue | subscribe =>
    exact Leads.then_pure (leads_onMutation hQ hme _)
  case process fresh => exact Leads.then_pure ((leads_onProcess hQ hme fresh).mono fun _ _ h => ⟨_, h⟩)
  case algProcess => exact Leads.then_pure ((leads_onAlgProcess hQ hme).mono fun _ _ h => ⟨_, h⟩)
  case startBarrierWait b g sent => exact Leads.then_pure (leads_onBarrierReport hme b g sent)
  case barrierMsgDist k => exact leads_expect hQ hme call k
  case atBarrier b => exact Leads.then_pure (leads_onAtBarrier hme b)
  case endBarrier => exact Leads.then_pure (leads_onEndBarrier hQ hme)
  case algVertices b vs => exact Leads.then_pure (leads_onAlgVertices hme b vs)
  case algInternalCompute b active iter ms =>
    exact Leads.then_pure (leads_onAlgCompute hQ hme b active iter ms)
  -- no other message is the protocol's
  all_goals exact absurd hmsg Bool.false_ne_true

/-- A frame is decoded and handled; one that does not decode changes nothing. -/
theorem leads_handleFrame (hQ : Q.Sound) (hme : me ∈ Q.agents) (call : Call) {frame : Bytes}
    (hf : ∀ msg, Message.decode frame = .ok msg → msg.Protocol) :
    Leads Q W (handleFrame call me frame .peer) fun _ W' =>
      ∃ act, Moves Q me (Signal.ofFrame? frame) act W W' := by
  unfold handleFrame
  split
  · rename_i e hd
    rw [Signal.ofFrame?_of_error hd]
    exact leads_pure ⟨_, Moves.quiet W⟩
  · rename_i msg hd
    rw [Signal.ofFrame?_of_decode hd]
    -- a failure of the handler is answered, from where it left the view
    refine Leads.tryCatch (P := fun _ W' => ∃ act, Moves Q me msg.signal? act W W')
      ((leads_handle hQ hme call (hf msg hd)).bind (fun _ _ h => leads_pure h) fun _ h => h)
      (fun _ _ h => leads_pure h) fun _ _ h => h

end Handling

end ShardStore
