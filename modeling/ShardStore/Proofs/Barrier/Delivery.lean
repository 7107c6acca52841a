import ShardStore.Proofs.Barrier.Refinement
import ShardStore.Proofs.Mesh.SingleWriter
/-!
Delivering frames keeps a mesh in lock-step.

An agent handling the oldest frame of its inbox takes a step of the barrier protocol, or, with
no frame waiting, changes nothing; a fault it meets is recorded without stopping it, since a
mesh running a roster stops no agent. So every run of a mesh that delivers frames to the agents
of a roster keeps the lock-step invariant from the start of a run on.
-/

namespace ShardStore

open Agent Mesh Lockstep

variable {Q : Roster} {W : View}

/-- An agent marked busy while a change runs: the change leads where it led. -/
theorem Leads.whileBusy {α : Type} {a : Address} {x : MeshM α} {P : Option α → View → Prop}
    (hx : Leads Q W x P) : Leads Q W (Mesh.whileBusy a x) P := by
  unfold Mesh.whileBusy
  refine Leads.seq (leads_modify (fun _ => rfl) fun _ => rfl) ?_
  exact hx.bind (fun _ _ h => Leads.seq (leads_modify (fun _ => rfl) fun _ => rfl) (leads_pure h))
    fun _ h => h

/-- The signal of the oldest frame waiting for the agent at `a`, if any. -/
def Mesh.nextSignal? (m : Mesh) (a : Address) : Option Signal :=
  ((m.find? a).bind fun n => n.inbox.toList.head?).bind Signal.ofFrame?

theorem Mesh.get_bind_apply {β : Type} (f : Mesh → MeshM β) (m : Mesh) : (get >>= f) m = f m m :=
  rfl

theorem Mesh.set_bind_apply {β : Type} (m' : Mesh) (f : PUnit → MeshM β) (m : Mesh) :
    (set m' >>= f) m = f () m' :=
  rfl

/-- A mesh running a roster where the agent at `a` has no frame to take has no signal waiting
for it. -/
theorem Mesh.nextSignal?_of_pop? {m : Mesh} (hm : m.Runs Q) {a : Address}
    (hpop : ((m.find? a).filter (·.halted.isNone)).bind (·.inbox.pop?) = none) :
    m.nextSignal? a = none := by
  cases hfind : m.find? a with
  | none => simp [Mesh.nextSignal?, hfind]
  | some n =>
    have hn := hm.nodes n (Array.mem_of_find?_eq_some hfind)
    rw [hfind] at hpop
    simp only [Option.filter, hn.halted, Option.isNone_none, if_true, Option.bind_some] at hpop
    have hlist := Inbox.pop?_toList n.inbox
    rw [hpop, Option.map_none] at hlist
    revert hlist
    cases hl : n.inbox.toList with
    | nil => simp [Mesh.nextSignal?, hfind, hl]
    | cons f rest => simp

/-- The agent at `a` handles the oldest frame of its inbox: a step of the protocol taking the
signal the frame carries. With no frame waiting nothing changes. -/
theorem handleNext_step (hQ : Q.Sound) {m : Mesh} (hm : m.Runs Q) (a : Address) :
    (endState (handleNext a m)).Runs Q ∧
      (m.nextSignal? a = none ∧ (endState (handleNext a m)).view = m.view ∨
        a ∈ Q.agents ∧ ∃ act, Step Q a (m.nextSignal? a) act m.view
          (endState (handleNext a m)).view) := by
  rw [handleNext, Mesh.get_bind_apply]
  cases hpop : ((m.find? a).filter (·.halted.isNone)).bind (·.inbox.pop?) with
  | none => exact ⟨hm, .inl ⟨Mesh.nextSignal?_of_pop? hm hpop, rfl⟩⟩
  | some p =>
    obtain ⟨frame, rest⟩ := p
    dsimp only
    obtain ⟨n, hfind, hpop'⟩ := Option.bind_eq_some_iff.mp hpop
    obtain ⟨hfind', -⟩ := Option.filter_eq_some_iff.mp hfind
    have hn : n ∈ m.nodes := Array.mem_of_find?_eq_some hfind'
    have hna : n.addr = a := by simpa using Array.find?_some hfind'
    have hrun := hm.nodes n hn
    have ha : a ∈ Q.agents := hna ▸ hrun.mem
    have hinbox := Inbox.toList_of_pop? hpop'
    have hfirst : frame ∈ n.inbox.toList := by
      rw [hinbox]
      exact List.mem_cons_self
    have hnext : m.nextSignal? a = Signal.ofFrame? frame := by
      simp [Mesh.nextSignal?, hfind', hinbox]
    -- the frame leaves the inbox, and its signal the agent's
    have hsig : (m.view a).signals =
        (Signal.ofFrame? frame).toList ++ rest.toList.filterMap Signal.ofFrame? := by
      rw [← standing_of_find? hfind']
      show n.inbox.toList.filterMap _ = _
      rw [hinbox, List.filterMap_cons]
      cases Signal.ofFrame? frame <;> rfl
    have hm' : (m.update a fun n => { n with inbox := rest }).Runs Q :=
      hm.update (fun _ => rfl) fun _ h' => ⟨h'.mem, h'.agents, h'.ring, h'.halted,
        fun f hf => hrun.inbox f (by rw [hinbox]; exact List.mem_cons_of_mem _ hf)⟩
    have hv' : (m.update a fun n => { n with inbox := rest }).view =
        m.view.set a fun w => { w with signals := rest.toList.filterMap Signal.ofFrame? } := by
      rw [view_update (f := fun n => { n with inbox := rest }) (fun _ => rfl) (hm.bound a ha)
        fun n' hn' => ?_]
      rw [hfind'] at hn'
      cases hn'
      rfl
    rw [Mesh.set_bind_apply, hnext]
    -- the handler moves the view as the protocol says, and a fault stops no agent
    refine (hv' ▸ ?_ : Leads Q _ _ fun _ W' => ∃ act, Step Q a (Signal.ofFrame? frame) act m.view W')
      _ hm' rfl |>.imp id fun h => .inr ⟨ha, h⟩
    have hstep : ∀ V, (∃ act, Moves Q a (Signal.ofFrame? frame) act
        (m.view.set a fun w => { w with signals := rest.toList.filterMap Signal.ofFrame? }) V) →
        ∃ act, Step Q a (Signal.ofFrame? frame) act m.view V := fun V h => by
      obtain ⟨act, hmove⟩ := h
      exact ⟨act, Step.mk _ hsig hmove⟩
    refine (Leads.whileBusy (leads_handleFrame hQ ha call fun msg hd =>
      hrun.inbox frame hfirst msg hd)).bind (fun r V h => ?_) fun V h => hstep V h
    split
    · exact leads_pure (hstep V h)
    · exact Quiet.leads_bind quiet_halt (fun _ => leads_pure (hstep V h)) (hstep V h)

/-- A mesh delivers a frame: one agent handles the oldest frame of its inbox. -/
def Mesh.Delivers (m m' : Mesh) : Prop := ∃ a, m' = endState (handleNext a m)

/-- Delivering a frame keeps the mesh running the roster and the lock-step invariant, for the
ghost the step moves to. -/
theorem Inv.delivers (hQ : Q.Sound) {g : Ghost} {m m' : Mesh} (hm : m.Runs Q)
    (hI : Inv Q g m.view) (hstep : Mesh.Delivers m m') : m'.Runs Q ∧ ∃ g', Inv Q g' m'.view := by
  obtain ⟨a, rfl⟩ := hstep
  obtain ⟨hm', hW⟩ := handleNext_step hQ hm a
  refine ⟨hm', ?_⟩
  rcases hW with ⟨-, hW⟩ | ⟨ha, act, hs⟩
  · exact ⟨g, hW ▸ hI⟩
  · exact ⟨_, hI.step hQ ha hs⟩

/-- Every run of a mesh delivering frames keeps the lock-step invariant. -/
theorem inv_of_delivered (hQ : Q.Sound) {g : Ghost} {m₀ m : Mesh} (hm₀ : m₀.Runs Q)
    (hI : Inv Q g m₀.view) (hrun : Relation.ReflTransGen Mesh.Delivers m₀ m) :
    m.Runs Q ∧ ∃ g, Inv Q g m.view := by
  induction hrun with
  | refl => exact ⟨hm₀, g, hI⟩
  | tail _ hstep ih =>
    obtain ⟨hm, g', hI'⟩ := ih
    exact Inv.delivers hQ hm hI' hstep

end ShardStore
