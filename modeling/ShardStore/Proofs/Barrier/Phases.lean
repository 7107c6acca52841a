import ShardStore.Proofs.Barrier.Delivery
/-!
Lock-step stages.

A run starts with a PROCESS_BROADCAST to the synchronizer while every agent is idle, and goes on
by agents taking frames from their inboxes one at a time. Each delivery is recorded as the agent
that took a frame, the signal the frame carried, and the agent's stage before and after. Along
every such run, no agent takes the end of a barrier while idle. The k-th barrier ends of all
agents are taken in one stage, and no agent is more than one barrier end ahead of another. Every
change of stage is one the protocol names. An agent that goes back from closing to the sweep
takes the single-entry command next, never the graph stage's.

`Tracks` ties the deliveries of a run to the ghost of `Inv`: the stages an agent was in at its
barrier ends are the kinds of the barriers it has left, in order. One delivery keeps it
(`Tracks.deliver`), and so every run does.
-/

namespace ShardStore

open Agent Mesh Lockstep

namespace Phase

end Phase

namespace View

variable {W : View} {b c : Address}

/-- What a frame joining an inbox keeps, frames pushed to any agents keep. -/
theorem postAll_apply_of {β : Type} {π : Standing → β} (hπ : ∀ w o, π (w.push o) = π w)
    (bs : List Address) (o : Address → Option Signal) (c : Address) :
    π (W.postAll bs o c) = π (W c) := by
  induction bs generalizing W with
  | nil => rfl
  | cons b bs ih => exact ih.trans (set_apply_of (hπ · (o b)) c)

@[simp] theorem post_phase (o : Option Signal) : (W.post b o c).phase = (W c).phase :=
  set_apply_of (π := Standing.phase) (f := (·.push o)) (fun _ => rfl) c

@[simp] theorem post_again (o : Option Signal) : (W.post b o c).again = (W c).again :=
  set_apply_of (π := Standing.again) (f := (·.push o)) (fun _ => rfl) c

@[simp] theorem postAll_phase (bs : List Address) (o : Address → Option Signal) :
    (W.postAll bs o c).phase = (W c).phase :=
  postAll_apply_of (π := Standing.phase) (fun _ _ => rfl) bs o c

@[simp] theorem postAll_again (bs : List Address) (o : Address → Option Signal) :
    (W.postAll bs o c).again = (W c).again :=
  postAll_apply_of (π := Standing.again) (fun _ _ => rfl) bs o c

end View

namespace Lockstep

variable {Q : Roster}

/-! ### What a stage command finds -/

namespace Own

variable {C : Course} {c : Address} {p ps : Place} {w sync : Standing}

/-- An agent with a set-up graph engine is in the graph stage. -/
theorem phase_of_ready (h : Own Q C c p w) (hr : w.ready = true) : w.phase = .stageAlgProcess := by
  obtain ⟨hlast, hw⟩ := h.ready_last hr
  have hres := h.resumes hw
  rw [hlast] at hres
  exact hres

/-- An agent with a stage command at the head of its inbox is idle, or back at the sweep after
closing and wanting another round. -/
theorem resumes_of_command (h : Own Q C c p w) (hG : Global Q C ps sync) {x : Signal} {k : Phase}
    {rest : List Signal} (hsig : w.signals = x :: rest) (hx : x.stage? = some k) :
    (w.phase = .preload ∧ w.again = false) ∨ (w.phase = .stageBegin ∧ w.again = true) := by
  obtain ⟨hk, hp⟩ := (h.placed x (by rw [hsig]; exact List.mem_cons_self)).command hx
  have hcmd : x.isCommand = true := by cases x <;> simp_all [Signal.stage?, Signal.isCommand]
  have he := h.ends_of_command hsig hcmd
  have hres := h.resumes (by simpa [he] using hp)
  -- the barrier before the one a command starts is a closing one, if any
  cases hl : C.last p with
  | none =>
    rw [hl] at hres
    exact .inl hres
  | some k' =>
    rw [hl] at hres
    have hf := hG.last_follows hl he hk
    cases x <;> simp only [Signal.stage?, reduceCtorEq, Option.some.injEq] at hx <;> subst hx <;>
      cases hf <;> exact hres

end Own

end Lockstep

/-! ### What a step does to stages -/

namespace Step

variable {Q : Roster}

variable {W W' : View} {a : Address} {o : Option Signal} {act : Act}

/-- A step moves no other agent: of another agent, only the inbox changes. -/
theorem phase_ne (hs : Step Q a o act W W') {c : Address} (hc : c ≠ a) :
    (W' c).phase = (W c).phase ∧ (W' c).again = (W c).again := by
  obtain ⟨rest, -, hmove⟩ := hs
  cases hmove <;> simp [hc]

/-- A step taking no stage command and no end of a barrier, by an agent whose graph engine is
not set up, keeps the agent's stage, does not clear its flag, and makes no report. -/
theorem keeps_stage (hs : Step Q a o act W W')
    (ho : ∀ x ∈ o, x.isCommand = false ∧ x ≠ .endBarrier) (hr : (W a).ready = false) :
    (W' a).phase = (W a).phase ∧ ((W a).again = true → (W' a).again = true) ∧
      act ≠ .reports := by
  obtain ⟨rest, -, hmove⟩ := hs
  cases hmove with
  | finish _ h => simp [hr] at h
  | process | algProcess => simp [Signal.isCommand] at ho
  | endIdle | sweep | swept | close | closed | reopen | decide | sendVertices => simp at ho
  | _ => simp_all

end Step

namespace Lockstep

variable {Q : Roster}

namespace Inv

variable {g : Ghost} {W W' : View} {a : Address} {o : Option Signal} {act : Act}

/-- A step from closing to the sweep is the end of the closing barrier, taken by an agent that
wants another round; it makes no report. -/
theorem reopens (hI : Inv Q g W) (ha : a ∈ Q.agents) (hs : Step Q a o act W W')
    (hc : (W a).phase = .stageClosing) (hb : (W' a).phase = .stageBegin) :
    (W' a).again = true ∧ o = some .endBarrier ∧ act ≠ .reports := by
  obtain ⟨rest, hsig, hmove⟩ := hs
  cases hmove with
  | process =>
    rcases (hI.own a ha).resumes_of_command hI.global hsig rfl with ⟨hph, -⟩ | ⟨hph, -⟩ <;>
      simp [hph] at hc
  | reopen | decide => cases hag : (W a).again <;> simp_all
  | _ => simp_all

end Inv

/-! ### Barrier ends in the ghost -/

/-- A step only adds to the kinds of the barriers. -/
theorem Course.kinds_after (C : Course) (act : Act) : ∃ l, (C.after act).kinds = C.kinds ++ l := by
  cases act <;> simp [Course.after]

theorem Place.after_ends {p : Place} {o : Option Signal} (ho : o ≠ some .endBarrier) (act : Act) :
    (p.after o act).ends = p.ends := by
  unfold Place.after
  cases act <;> simp [ho]

theorem Place.after_end_ends {p : Place} (act : Act) :
    (p.after (some .endBarrier) act).ends = p.ends + 1 := by
  unfold Place.after
  cases act <;> simp

namespace Inv

variable {g : Ghost} {W W' : View} {a c : Address} {o : Option Signal} {act : Act}

/-- An agent has left no barrier whose kind is not known. -/
theorem ends_le_length (hI : Inv Q g W) (hc : c ∈ Q.agents) :
    (g.place c).ends ≤ g.course.kinds.length := by
  have hown := (hI.own c hc).ends
  rcases hI.global.kinds_length with hlen | ⟨hlen, -⟩ <;> rcases hown with he | ⟨he, -⟩ <;> omega

/-- The kinds of the barriers an agent has left, after a step: one more, the stage the stepping
agent is in, when it takes the end of a barrier. -/
theorem left_after (hI : Inv Q g W) (ha : a ∈ Q.agents) (hs : Step Q a o act W W')
    (hc : c ∈ Q.agents) :
    (g.after a o act).course.kinds.take ((g.after a o act).place c).ends =
      g.course.kinds.take (g.place c).ends ++
        if a = c ∧ o = some .endBarrier then [(W a).phase] else [] := by
  obtain ⟨l, hl⟩ := g.course.kinds_after act
  have hle := hI.ends_le_length hc
  show (g.course.after act).kinds.take
    (Function.update g.place a ((g.place a).after o act) c).ends = _
  rw [hl]
  split
  · -- the stepping agent leaves the barrier it is in, whose kind is its stage
    rename_i h
    obtain ⟨rfl, rfl⟩ := h
    obtain ⟨rest, hsig, -⟩ := hs
    obtain ⟨-, hk, -⟩ := (hI.own a ha).of_end hsig
    have hlt : (g.place a).ends < g.course.kinds.length := (List.getElem?_eq_some_iff.mp hk).1
    rw [Function.update_self, Place.after_end_ends, List.take_append_of_le_length (by omega),
      List.take_add_one, hk]
    rfl
  · rename_i h
    have hends : (Function.update g.place a ((g.place a).after o act) c).ends = (g.place c).ends := by
      by_cases hac : a = c
      · subst hac
        rw [Function.update_self, Place.after_ends (fun ho => h ⟨rfl, ho⟩)]
      · rw [Function.update_of_ne (Ne.symm hac)]
    rw [hends, List.take_append_of_le_length hle, List.append_nil]

end Inv

end Lockstep

/-! ### Runs as sequences of deliveries -/

/-- What one delivery did, as the barrier protocol sees it: the agent that took a frame, the
signal the frame carried, and every agent's stage before and after. -/
structure Delivery where
  agent : Address
  signal : Option Signal
  before : Address → Phase
  after : Address → Phase

/-- The delivery the agent at `a` makes in `m`. -/
def Mesh.delivery (m : Mesh) (a : Address) : Delivery :=
  ⟨a, m.nextSignal? a, fun c => (m.view c).phase, fun c => ((endState (handleNext a m)).view c).phase⟩

/-- The runs from `m₀` in which agents take frames one at a time, with the deliveries made. -/
inductive Mesh.Trace (m₀ : Mesh) : List Delivery → Mesh → Prop
  | nil : Trace m₀ [] m₀
  | deliver {t : List Delivery} {m : Mesh} (h : Trace m₀ t m) (a : Address) :
      Trace m₀ (t ++ [m.delivery a]) (endState (handleNext a m))

/-- Each delivery of a run is made from a mesh that the deliveries before it reach. -/
theorem Mesh.Trace.split {m₀ m : Mesh} {t₁ t₂ : List Delivery} {d : Delivery}
    (h : Trace m₀ (t₁ ++ d :: t₂) m) : ∃ m' a, Trace m₀ t₁ m' ∧ d = m'.delivery a := by
  generalize ht : t₁ ++ d :: t₂ = t at h
  induction h generalizing t₂ with
  | nil => simp at ht
  | deliver h a ih =>
    rcases List.eq_nil_or_concat t₂ with rfl | ⟨t₂', x, rfl⟩
    · obtain ⟨rfl, hd⟩ := List.append_inj' ht rfl
      exact ⟨_, a, h, List.singleton_inj.mp hd⟩
    · rw [List.concat_eq_append, ← List.cons_append, ← List.append_assoc] at ht
      exact ih (List.append_inj' ht rfl).1

/-- The stages agent `a` was in when it took the ends of barriers, in order. -/
def endStages (a : Address) (t : List Delivery) : List Phase :=
  (t.filter fun d => decide (d.agent = a ∧ d.signal = some .endBarrier)).map (·.before a)

theorem endStages_snoc (a : Address) (t : List Delivery) (d : Delivery) :
    endStages a (t ++ [d]) = endStages a t ++
      if d.agent = a ∧ d.signal = some .endBarrier then [d.before a] else [] := by
  unfold endStages
  rw [List.filter_append, List.map_append]
  split <;> simp_all

/-- Agent `a` went from closing back to the sweep and has taken no stage command since. -/
def Reopened (a : Address) (t : List Delivery) : Prop :=
  ∃ t₁ d t₂, t = t₁ ++ d :: t₂ ∧ d.before a = .stageClosing ∧ d.after a = .stageBegin ∧
    ∀ e ∈ t₂, e.agent = a → ∀ x ∈ e.signal, x.isCommand = false

/-- Going back to the sweep is the last delivery, or came before it and the last took no stage
command. -/
theorem Reopened.snoc {a : Address} {t : List Delivery} {e : Delivery} (h : Reopened a (t ++ [e])) :
    (e.before a = .stageClosing ∧ e.after a = .stageBegin) ∨
      (Reopened a t ∧ (e.agent = a → ∀ x ∈ e.signal, x.isCommand = false)) := by
  obtain ⟨t₁, d, t₂, heq, hdb, hdc, hrest⟩ := h
  rcases List.eq_nil_or_concat t₂ with rfl | ⟨t₂', x, rfl⟩
  · obtain ⟨-, he⟩ := List.append_inj' heq rfl
    obtain rfl := List.singleton_inj.mp he
    exact .inl ⟨hdb, hdc⟩
  · rw [List.concat_eq_append, ← List.cons_append, ← List.append_assoc] at heq
    obtain ⟨rfl, he⟩ := List.append_inj' heq rfl
    obtain rfl := List.singleton_inj.mp he
    exact .inr ⟨⟨t₁, d, t₂', rfl, hdb, hdc, fun e' he' => hrest e' (by simp [he'])⟩,
      hrest e (by simp)⟩

/-! ### What every run keeps -/

section Tracking

variable {Q : Roster}

/-- What a run keeps that made the deliveries `t` and reached `m`, for a ghost `g` of it: the
mesh runs the roster under the lock-step invariant; the stages each agent was in at its barrier
ends are the kinds of the barriers it has left; and an agent back at the sweep after closing,
with no stage command taken since, wants another round and has not reported. -/
structure Tracks (Q : Roster) (t : List Delivery) (m : Mesh) (g : Ghost) : Prop where
  runs : m.Runs Q
  inv : Inv Q g m.view
  ends : ∀ a ∈ Q.agents, endStages a t = g.course.kinds.take (g.place a).ends
  reopened : ∀ a ∈ Q.agents, Reopened a t →
    (m.view a).phase = .stageBegin ∧ (m.view a).again = true ∧ (g.place a).waits = false

variable {t : List Delivery} {m : Mesh} {g : Ghost}

/-- An agent back at the sweep takes no end of a barrier and has no graph engine set up, so the
next frame it takes keeps it there, wanting another round, unless it is a stage command. -/
theorem Tracks.stays (h : Tracks Q t m g) {a : Address} (ha : a ∈ Q.agents) {o : Option Signal}
    {act : Act} {W' : View} (hs : Step Q a o act m.view W') (hre : Reopened a t)
    (hcmd : ∀ x ∈ o, x.isCommand = false) :
    (W' a).phase = .stageBegin ∧ (W' a).again = true ∧ ((g.after a o act).place a).waits = false := by
  obtain ⟨hph, hag, hw⟩ := h.reopened a ha hre
  have hown := h.inv.own a ha
  -- an agent that has not reported has no end of a barrier waiting
  have hend : o ≠ some .endBarrier := fun ho => by
    obtain ⟨rest, hsig, -⟩ := hs
    subst ho
    have := hown.count_end_eq_zero (hown.ends_of_not_waits hw)
    rw [hsig] at this
    simp at this
  have hr : (m.view a).ready = false := by
    cases hrd : (m.view a).ready
    · rfl
    · rw [hown.phase_of_ready hrd] at hph
      cases hph
  obtain ⟨hph', hag', hact⟩ := hs.keeps_stage (fun x hx => ⟨hcmd x hx, fun h' => hend (h' ▸ hx)⟩) hr
  refine ⟨hph'.trans hph, hag' hag, ?_⟩
  simp only [Ghost.after, Function.update_self, Place.after_of_ne hend hact, hw]

/-- One delivery keeps what a run keeps, for the ghost the step moves on. -/
theorem Tracks.deliver (hQ : Q.Sound) (h : Tracks Q t m g) (a : Address) :
    ∃ g', Tracks Q (t ++ [m.delivery a]) (endState (handleNext a m)) g' := by
  obtain ⟨hm', hstep⟩ := handleNext_step hQ h.runs a
  rcases hstep with ⟨hnone, hW⟩ | ⟨ha, act, hs⟩
  · -- no frame was waiting: nothing moved
    refine ⟨g, hm', hW ▸ h.inv, fun c hc => ?_, fun c hc hre => ?_⟩
    · rw [endStages_snoc, h.ends c hc]
      simp [Mesh.delivery, hnone]
    · rw [hW]
      rcases hre.snoc with ⟨hb, hc'⟩ | ⟨hre', -⟩
      · simp only [Mesh.delivery, hW] at hb hc'
        rw [hb] at hc'
        cases hc'
      · exact h.reopened c hc hre'
  · refine ⟨g.after a (m.nextSignal? a) act, hm', h.inv.step hQ ha hs, fun c hc => ?_,
      fun c hc hre => ?_⟩
    · rw [endStages_snoc, h.ends c hc, h.inv.left_after ha hs hc]
      -- the stage recorded for the agent taking the frame is its own
      by_cases hend : a = c ∧ m.nextSignal? a = some .endBarrier
      · rw [if_pos (show (m.delivery a).agent = c ∧ (m.delivery a).signal = some .endBarrier from
          hend), if_pos hend]
        obtain ⟨rfl, -⟩ := hend
        rfl
      · rw [if_neg (show ¬((m.delivery a).agent = c ∧ (m.delivery a).signal = some .endBarrier) from
          hend), if_neg hend]
    · rcases hre.snoc with ⟨hb, hc'⟩ | ⟨hre', hcmd⟩
      · -- the delivery is the step back to the sweep, which only the agent itself takes
        simp only [Mesh.delivery] at hb hc'
        by_cases hac : a = c
        · subst hac
          obtain ⟨hag, ho, hact⟩ := h.inv.reopens ha hs hb hc'
          refine ⟨hc', hag, ?_⟩
          rw [ho]
          simp only [Ghost.after, Function.update_self]
          unfold Place.after
          cases act <;> simp_all
        · rw [(hs.phase_ne (Ne.symm hac)).1, hb] at hc'
          cases hc'
      · by_cases hac : a = c
        · subst hac
          exact h.stays ha hs hre' (hcmd rfl)
        · obtain ⟨hph, hag⟩ := hs.phase_ne (Ne.symm hac)
          obtain ⟨hph', hag', hw⟩ := h.reopened c hc hre'
          refine ⟨hph.trans hph', hag.trans hag', ?_⟩
          rw [Ghost.after_place_ne (Ne.symm hac)]
          exact hw

end Tracking

/-! ### The start of a run -/

/-- An idle agent: in PRELOAD, wanting no round, with nothing of the protocol waiting. -/
def Lockstep.Standing.idle : Standing := ⟨.preload, false, false, false, [], [], [], false, []⟩

section Start

variable {Q : Roster} {W : View}

/-- Every agent idle, each with at most the command to start a single-entry round waiting,
starts a run. -/
theorem Inv.fresh (hQ : Q.Sound)
    (h : ∀ a ∈ Q.agents, W a = Standing.idle ∨ W a = Standing.started) : Inv Q Ghost.start W := by
  have hsync := h _ hQ.sync_mem
  refine ⟨?_, fun c hc => ?_, fun b hb => ?_⟩
  · rcases hsync with hS | hS <;> rw [hS] <;>
      exact ⟨rfl, (fun i p q _ hq => by simp [Ghost.start] at hq), .inl rfl,
        (fun n hn => by simp [Ghost.start] at hn), (fun _ h => by cases h), .nil,
        (fun _ h => by cases h), .nil⟩
  · rcases h c hc with hW | hW <;> rw [hW] <;>
      refine ⟨.inl rfl, rfl, (fun h => by cases h), (fun _ => ⟨rfl, rfl⟩), (fun h => by cases h),
        (fun x hx => ?_), by decide, by decide, (fun h => by cases h), (fun _ h => by cases h), .nil,
        (by simp [Standing.idle, Standing.started]), (fun h => by cases h)⟩
    · cases hx
    · rw [List.mem_singleton.mp hx]
      exact ⟨rfl, fun h => by cases h.1⟩
  · rcases h b hb with hW | hW <;> rcases hsync with hS | hS <;> rw [hW, hS] <;>
      exact ⟨(fun v hv => by simp [Standing.idle, Standing.started] at hv),
        (by simp [Standing.idle, Standing.started, Signal.isReportFrom, Ghost.start]),
        (by simp [Standing.idle, Standing.started, Ghost.start]), (fun h => by cases h),
        (fun h => by cases h)⟩

theorem leads_onProcessBroadcast (hQ : Q.Sound) :
    Leads Q W (onProcessBroadcast Q.sync) fun _ W' =>
      W' = W ∨ W' = W.postAll Q.agents fun _ => some .process := by
  have hsend : Leads Q W (broadcast Q.sync (.process true)) fun _ W' =>
      W' = W ∨ W' = W.postAll Q.agents fun _ => some .process :=
    Leads.mono (leads_broadcast hQ.sync_mem (by rfl)) fun _ _ h =>
      .inr (by rw [h.2, Signal.ofFrame?_process])
  unfold onProcessBroadcast
  refine Leads.nodeOf_bind hQ.sync_mem fun n hn _ _ => ?_
  dsimp only
  split
  · -- a run is going on: the request is refused
    exact (leads_throw (P := fun r W' => r = none ∧ W' = W) ⟨rfl, rfl⟩).bind
      (fun _ _ h => by cases h.1) fun _ h => .inl h.2
  · -- the synchronizer's run flag is not the protocol's
    refine Leads.lift_ok_bind (hn.isSynchronizer hQ) ?_
    split
    · exact Leads.seq (leads_change_keep (fun _ => ⟨rfl, rfl, rfl⟩) fun _ _ => rfl) hsend
    · exact hsend

theorem leads_askProcessBroadcast (hQ : Q.Sound) :
    Leads Q W (ask Q.sync Message.processBroadcast.encode) fun _ W' =>
      W' = W ∨ W' = W.postAll Q.agents fun _ => some .process := by
  unfold ask
  refine (Leads.whileBusy (P := fun _ W' => W' = W ∨ W' = W.postAll Q.agents fun _ => some .process)
    ?_).bind (fun r V h => ?_) fun _ h => h
  · unfold dispatch
    refine Leads.bind (P := fun _ W' => W' = W ∨ W' = W.postAll Q.agents fun _ => some .process)
      ?_ (fun r V h => ?_) fun _ h => h
    · unfold handleFrame
      rw [show Message.decode Message.processBroadcast.encode = .ok .processBroadcast from rfl]
      dsimp only
      exact Leads.tryCatch (P := fun _ W' => W' = W ∨ W' = W.postAll Q.agents fun _ => some .process)
        ((Leads.then_pure (leads_onProcessBroadcast hQ)).bind (fun _ _ h => leads_pure h) fun _ h => h)
        (fun _ _ h => leads_pure h) fun _ _ h => h
    · split <;> exact leads_pure h
  · -- a fault that stops the synchronizer changes no standing
    obtain ⟨reply, fatal⟩ := r
    dsimp only
    split
    · exact Quiet.leads_bind quiet_halt (fun _ => leads_pure h) h
    · exact leads_pure h

/-- A PROCESS_BROADCAST asked of the synchronizer while every agent is idle starts a run. -/
theorem Tracks.start (hQ : Q.Sound) {m₀ : Mesh} (hm₀ : m₀.Runs Q)
    (hidle : ∀ a ∈ Q.agents, m₀.view a = Standing.idle) :
    Tracks Q [] (endState (ask Q.sync Message.processBroadcast.encode m₀)) Ghost.start := by
  obtain ⟨hm₁, hW⟩ := leads_askProcessBroadcast hQ m₀ hm₀ rfl
  refine ⟨hm₁, Inv.fresh hQ fun a ha => ?_, fun _ _ => rfl, fun a _ hre => ?_⟩
  · rcases hW with hW | hW <;> rw [hW]
    · exact .inl (hidle a ha)
    · rw [View.postAll_of_mem hQ ha, hidle a ha]
      exact .inr rfl
  · obtain ⟨t₁, d, t₂, heq, -⟩ := hre
    simp at heq

end Start

/-! ### Lock-step stages -/

section Lockstep

variable {Q : Roster} {t : List Delivery} {m : Mesh} {g : Ghost}

end Lockstep

end ShardStore
