import ShardStore.Proofs.Barrier.Rounds
import ShardStore.Proofs.Mesh.Ownership
/-!
The mesh as the barrier protocol sees it.

Of an agent the protocol reads its stage, its flag, whether it waits for a count, whether its
graph engine is set up, whose vertex lists it has, the synchronizer's tally, and the signals of
the frames in its inbox: that is `Node.standing`, and `Mesh.view` gives every agent's.

A mesh runs a roster when it stops no agent at a fault, every agent of the roster is bound, and
every agent bound knows the roster's agents and ring and has only frames of the protocol waiting.
`Leads Q W x Post` says that the change `x`, started in a mesh running `Q` with the view `W`,
ends in one, in a view `Post` allows for the value it finished with, or for its failure; the
rules below put such facts together the way a `do` block puts changes together. A change is
`Quiet` when it leaves the view as it was however it ends: every write an agent routes is.
-/

namespace ShardStore

/-- Where an agent stands in the barrier protocol. -/
def Node.standing (n : Node) : Standing :=
  ⟨n.phase, n.again, n.wait.expected.isSome, n.engine.ready, n.exchange.vertexReports,
    n.tally.reported, n.tally.arrived, n.tally.again, n.inbox.toList.filterMap Signal.ofFrame?⟩

/-- An agent running the roster `Q`: one of its agents, knowing its agents and ring, not
stopped, and with only frames of the protocol waiting. -/
structure Node.Runs (Q : Roster) (n : Node) : Prop where
  mem : n.addr ∈ Q.agents
  agents : n.member.agents = Q.agents
  ring : n.member.ring = Q.ring
  halted : n.halted = none
  inbox : ∀ f ∈ n.inbox.toList, ∀ msg, Message.decode f = .ok msg → msg.Protocol

namespace Mesh

/-- Where every agent of a mesh stands. -/
def view (m : Mesh) : View := fun a => ((m.find? a).getD default).standing

/-- A mesh running the roster `Q`: it stops no agent at a fault, every agent of `Q` is bound,
and every agent bound runs `Q`. -/
structure Runs (Q : Roster) (m : Mesh) : Prop where
  calm : m.stopOnFatal = false
  bound : ∀ a ∈ Q.agents, a ∈ m.addrs
  nodes : ∀ n ∈ m.nodes, n.Runs Q

variable {m : Mesh} {a c : Address} {f : Node → Node}

/-- Changing the agents at one address changes what is found there, and only there. -/
theorem find?_update (hf : ∀ n, (f n).addr = n.addr) (c : Address) :
    (m.update a f).find? c = if c = a then (m.find? a).map f else m.find? c := by
  have hp : ((·.addr == c) ∘ fun n : Node => if n.addr == a then f n else n) =
      (·.addr == c) := by
    funext n
    by_cases h : n.addr = a <;> simp [h, hf]
  unfold find? update
  rw [Array.find?_map, hp]
  by_cases hca : c = a
  · subst hca
    rw [if_pos rfl]
    cases hfind : m.nodes.find? (·.addr == c) with
    | none => rfl
    | some n =>
      have hn : n.addr = c := by simpa using Array.find?_some hfind
      simp [hn]
  · rw [if_neg hca]
    cases hfind : m.nodes.find? (·.addr == c) with
    | none => rfl
    | some n =>
      have hn : n.addr = c := by simpa using Array.find?_some hfind
      simp [hn, hca]

/-- A change of the agent at an address changes its standing as its standing says. -/
theorem view_update (hf : ∀ n, (f n).addr = n.addr) {g : Standing → Standing}
    (ha : a ∈ m.addrs) (hg : ∀ n, m.find? a = some n → (f n).standing = g n.standing) :
    (m.update a f).view = m.view.set a g := by
  funext c
  obtain ⟨n, -, -, hfind⟩ := find?_of_mem_addrs ha
  simp only [view, find?_update hf, View.set_apply]
  split_ifs with hca
  · rw [hfind]
    simp [hg n hfind]
  · rfl

/-- A change of an agent that keeps its standing keeps the view. -/
theorem view_update_of_standing (hf : ∀ n, (f n).addr = n.addr)
    (hg : ∀ n, m.find? a = some n → (f n).standing = n.standing) : (m.update a f).view = m.view := by
  funext c
  simp only [view, find?_update hf]
  split_ifs with hca
  · subst hca
    cases hfind : m.find? c with
    | none => rfl
    | some n => simp [hg n hfind]
  · rfl

/-- The agent found at an address of a mesh stands as the view says. -/
theorem standing_of_find? {n : Node} (h : m.find? a = some n) : n.standing = m.view a := by
  simp [view, h]

/-- A frame pushed to an agent adds its signal, if any, to the agent's. -/
theorem standing_push (n : Node) (frame : Bytes) :
    ({ n with inbox := n.inbox.push frame } : Node).standing =
      n.standing.push (Signal.ofFrame? frame) := by
  simp only [Node.standing, Standing.push, Inbox.toList_push, List.filterMap_append]
  rcases h : Signal.ofFrame? frame with _ | x <;> simp [h]

theorem Runs.isBound {Q : Roster} (hm : m.Runs Q) (ha : a ∈ Q.agents) : m.isBound a = true := by
  obtain ⟨n, hn, hna, -⟩ := find?_of_mem_addrs (hm.bound a ha)
  refine Array.any_eq_true'.mpr ⟨n, hn, ?_⟩
  simp [hna, (hm.nodes n hn).halted]

/-- A change of the agent at an address that keeps it running keeps the mesh running. -/
theorem Runs.update {Q : Roster} (hm : m.Runs Q) (hf : ∀ n, (f n).addr = n.addr)
    (hr : ∀ n, n.Runs Q → (f n).Runs Q) : (m.update a f).Runs Q := by
  refine ⟨hm.calm, fun b hb => ?_, fun n' hn' => ?_⟩
  · have ha : ∀ n, n.addr = a → (f n).addr = a := fun n h => (hf n).trans h
    rw [addrs_update ha]
    exact hm.bound b hb
  · obtain ⟨n, hn, ⟨-, rfl⟩ | ⟨-, rfl⟩⟩ := mem_update hn'
    · exact hr _ (hm.nodes _ hn)
    · exact hm.nodes _ hn

end Mesh

theorem Node.Runs.congr {Q : Roster} {n n' : Node} (h : n.Runs Q) (hm : n'.member = n.member)
    (hh : n'.halted = n.halted) (hi : n'.inbox = n.inbox) : n'.Runs Q := by
  have ha : n'.addr = n.addr := congrArg Member.addr hm
  exact ⟨ha ▸ h.mem, hm ▸ h.agents, hm ▸ h.ring, hh ▸ h.halted, hi ▸ h.inbox⟩

/-- A frame of the protocol pushed to a running agent keeps it running. -/
theorem Node.Runs.push {Q : Roster} {n : Node} (h : n.Runs Q) {msg : Message}
    (hmsg : msg.Protocol) : ({ n with inbox := n.inbox.push msg.encode } : Node).Runs Q := by
  refine ⟨h.mem, h.agents, h.ring, h.halted, fun g hg msg' hd => ?_⟩
  rw [Inbox.toList_push] at hg
  rcases List.mem_append.mp hg with hg | hg
  · exact h.inbox g hg msg' hd
  · rw [List.mem_singleton.mp hg] at hd
    exact hmsg.decode hd

/-- The value a change finished with, or nothing if it failed. -/
def finished? {ε σ α : Type} : EStateM.Result ε σ α → Option α
  | .ok a _ => some a
  | .error _ _ => none

section Leads

variable {Q : Roster} {α β : Type}

/-- Started in a mesh running `Q` with the view `W`, the change `x` ends in a mesh running `Q`,
in a view `Post` allows for the value it finished with, `none` if it failed. -/
def Leads (Q : Roster) (W : View) (x : MeshM α) (Post : Option α → View → Prop) : Prop :=
  ∀ m, m.Runs Q → m.view = W →
    (endState (x m)).Runs Q ∧ Post (finished? (x m)) (endState (x m)).view

/-- A change that leaves the view as it was, however it ends. -/
def Quiet (Q : Roster) (x : MeshM α) : Prop := ∀ W, Leads Q W x fun _ W' => W' = W

variable {W : View} {x : MeshM α} {P P' : Option α → View → Prop}

theorem Leads.mono (h : Leads Q W x P) (hp : ∀ r W', P r W' → P' r W') : Leads Q W x P' :=
  fun m hm hv => (h m hm hv).imp_right (hp _ _)

theorem leads_pure {a : α} (h : P (some a) W) : Leads Q W (pure a) P :=
  fun _ hm hv => ⟨hm, hv ▸ h⟩

theorem leads_throw {e : Fault} (h : P none W) : Leads Q W (throw e) P :=
  fun _ hm hv => ⟨hm, hv ▸ h⟩

theorem bind_ok {f : α → MeshM β} {m m' : Mesh} {a : α} (h : x m = .ok a m') :
    (x >>= f) m = f a m' := by
  show EStateM.bind x f m = _
  simp [EStateM.bind, h]

theorem bind_error {f : α → MeshM β} {m m' : Mesh} {e : Fault} (h : x m = .error e m') :
    (x >>= f) m = .error e m' := by
  show EStateM.bind x f m = _
  simp [EStateM.bind, h]

/-- A failure is taken up where it left the mesh: a mesh change keeps what it did. -/
theorem tryCatch_error {h : Fault → MeshM α} {m m' : Mesh} {e : Fault}
    (hx : x m = .error e m') : (tryCatch x h : MeshM α) m = h e m' := by
  show EStateM.tryCatch x h m = _
  unfold EStateM.tryCatch
  rw [hx]
  rfl

theorem tryCatch_ok {h : Fault → MeshM α} {m m' : Mesh} {a : α} (hx : x m = .ok a m') :
    (tryCatch x h : MeshM α) m = .ok a m' := by
  show EStateM.tryCatch x h m = _
  unfold EStateM.tryCatch
  rw [hx]

/-- A bind leads where its continuation leads from every view the first change may reach. -/
theorem Leads.bind {f : α → MeshM β} {R : Option β → View → Prop} (hx : Leads Q W x P)
    (hf : ∀ a W', P (some a) W' → Leads Q W' (f a) R) (he : ∀ W', P none W' → R none W') :
    Leads Q W (x >>= f) R := by
  intro m hm hv
  have h1 := hx m hm hv
  cases hxm : x m with
  | ok a m' =>
    rw [hxm] at h1
    rw [bind_ok hxm]
    exact hf a _ h1.2 m' h1.1 rfl
  | error e m' =>
    rw [hxm] at h1
    rw [bind_error hxm]
    exact ⟨h1.1, he _ h1.2⟩

/-- A failure the handler takes up, from where the failure left the view. -/
theorem Leads.tryCatch {h : Fault → MeshM α} (hx : Leads Q W x P)
    (hh : ∀ e W', P none W' → Leads Q W' (h e) P') (hok : ∀ a W', P (some a) W' → P' (some a) W') :
    Leads Q W (tryCatch x h) P' := by
  intro m hm hv
  have h1 := hx m hm hv
  cases hxm : x m with
  | ok a m' =>
    rw [hxm] at h1
    rw [tryCatch_ok hxm]
    exact ⟨h1.1, hok a _ h1.2⟩
  | error e m' =>
    rw [hxm] at h1
    rw [tryCatch_error hxm]
    exact hh e _ h1.2 m' h1.1 rfl

/-- A change followed by an answer that does not depend on how it finished. -/
theorem Leads.then_pure {R : View → Prop} {b : β} (hx : Leads Q W x fun _ W' => R W') :
    Leads Q W (x >>= fun _ => pure b) fun _ W' => R W' :=
  hx.bind (fun _ _ h => leads_pure h) fun _ h => h

theorem quiet_pure {a : α} : Quiet Q (pure a : MeshM α) := fun _ => leads_pure rfl

theorem quiet_throw {e : Fault} : Quiet Q (throw e : MeshM α) := fun _ => leads_throw rfl

theorem Quiet.bind {f : α → MeshM β} (hx : Quiet Q x) (hf : ∀ a, Quiet Q (f a)) :
    Quiet Q (x >>= f) := fun W =>
  (hx W).bind (fun a _ h => h ▸ hf a W) fun _ h => h

/-- A quiet change first: what follows starts from the view the change started from. -/
theorem Quiet.leads_bind {f : α → MeshM β} {R : Option β → View → Prop} (hx : Quiet Q x)
    (hf : ∀ a, Leads Q W (f a) R) (he : R none W) : Leads Q W (x >>= f) R :=
  (hx W).bind (fun a _ h => h ▸ hf a) fun _ h => h ▸ he

theorem quiet_forM {l : List α} {f : α → MeshM PUnit} (hf : ∀ a ∈ l, Quiet Q (f a)) :
    Quiet Q (l.forM f) := by
  induction l with
  | nil => exact quiet_pure
  | cons a rest ih =>
    exact (hf a List.mem_cons_self).bind fun _ =>
      ih fun b hb => hf b (List.mem_cons_of_mem _ hb)

theorem quiet_foldlM {γ : Type} {l : List γ} {f : α → γ → MeshM α} {init : α}
    (hf : ∀ acc x, Quiet Q (f acc x)) : Quiet Q (l.foldlM f init) := by
  induction l generalizing init with
  | nil => exact quiet_pure
  | cons x rest ih => exact (hf init x).bind fun _ => ih

theorem quiet_tryCatch {h : Fault → MeshM α} (hx : Quiet Q x) (hh : ∀ e, Quiet Q (h e)) :
    Quiet Q (tryCatch x h) := fun W =>
  (hx W).tryCatch (fun e _ h' => h' ▸ hh e W) fun _ _ h' => h'

end Leads

/-! ### The changes agents are made of -/

section Primitives

variable {Q : Roster} {W : View} {α : Type} {me : Address}

open Mesh

theorem leads_get :
    Leads Q W get fun r W' => W' = W ∧ ∃ m, r = some m ∧ m.Runs Q ∧ m.view = W :=
  fun m hm hv => ⟨hm, hv, m, rfl, hm, hv⟩

theorem quiet_get : Quiet Q (get : MeshM Mesh) := fun _ => leads_get.mono fun _ _ h => h.1

/-- Reading an agent of the roster gives the agent bound there, running, as it stands. -/
theorem leads_nodeOf (hme : me ∈ Q.agents) :
    Leads Q W (nodeOf me) fun r W' =>
      W' = W ∧ ∃ n, r = some n ∧ n.Runs Q ∧ n.addr = me ∧ n.standing = W me := by
  intro m hm hv
  obtain ⟨n, hn, hna, hfind⟩ := find?_of_mem_addrs (hm.bound me hme)
  have hnode : (m.find? me).getD default = n := by rw [hfind]; rfl
  refine ⟨hm, hv, n, ?_, hm.nodes n hn, hna, ?_⟩
  · show some ((m.find? me).getD default) = some n
    rw [hnode]
  · rw [← hv]
    show n.standing = ((m.find? me).getD default).standing
    rw [hnode]

theorem quiet_nodeOf : Quiet Q (nodeOf me) := fun _ _ hm hv => ⟨hm, hv⟩

theorem leads_lift {o : Outcome α} :
    Leads Q W (lift o) fun r W' => W' = W ∧ r = o.toOption := by
  cases o with
  | ok x => exact leads_pure ⟨rfl, rfl⟩
  | error e => exact leads_throw ⟨rfl, rfl⟩

theorem quiet_lift {o : Outcome α} : Quiet Q (lift o) := fun _ => leads_lift.mono fun _ _ h => h.1

/-- Reading an agent of the roster, then going on with it. -/
theorem Leads.nodeOf_bind {β : Type} (hme : me ∈ Q.agents) {f : Node → MeshM β}
    {R : Option β → View → Prop}
    (hf : ∀ n, n.Runs Q → n.addr = me → n.standing = W me → Leads Q W (f n) R) :
    Leads Q W (nodeOf me >>= f) R :=
  (leads_nodeOf hme).bind (fun a _ h => by
    obtain ⟨hW, n, hn, hrun, hna, hst⟩ := h
    obtain rfl : a = n := Option.some.inj hn
    subst hW
    exact hf a hrun hna hst) fun _ h => by
    obtain ⟨_, _, h, _⟩ := h
    cases h

/-- A result known to be there, then going on with it. -/
theorem Leads.lift_ok_bind {β : Type} {o : Outcome α} {x : α} (ho : o = .ok x)
    {f : α → MeshM β} {R : Option β → View → Prop} (hf : Leads Q W (f x) R) :
    Leads Q W (lift o >>= f) R := by
  subst ho
  exact hf

/-- Reading the whole mesh, then going on with it. -/
theorem Leads.get_bind {β : Type} {f : Mesh → MeshM β} {R : Option β → View → Prop}
    (hf : ∀ m, m.Runs Q → m.view = W → Leads Q W (f m) R) : Leads Q W (get >>= f) R :=
  fun m hm hv => hf m hm hv m hm hv

/-- Putting a mesh in place, one that runs `Q` with the view `V`, then going on from there. -/
theorem Leads.set_bind {β : Type} {m' : Mesh} {V : View} {f : Unit → MeshM β}
    {R : Option β → View → Prop} (hm : m'.Runs Q) (hv : m'.view = V) (hf : Leads Q V (f ()) R) :
    Leads Q W (set m' >>= f) R :=
  fun _ _ _ => hf m' hm hv

/-- A result that may be missing: what follows from it, or the view as it was. -/
theorem Leads.lift_bind {β : Type} {o : Outcome α} {f : α → MeshM β} {R : Option β → View → Prop}
    (hf : ∀ x, o = .ok x → Leads Q W (f x) R) (he : R none W) : Leads Q W (lift o >>= f) R := by
  cases o with
  | ok x => exact hf x rfl
  | error e => exact fun _ hm hv => ⟨hm, hv ▸ he⟩

/-- A change that surely finishes, in a known view, then going on from there. -/
theorem Leads.seq {β : Type} {x : MeshM α} {a : α} {W' : View} {f : α → MeshM β}
    {R : Option β → View → Prop} (hx : Leads Q W x fun r V => r = some a ∧ V = W')
    (hf : Leads Q W' (f a) R) : Leads Q W (x >>= f) R :=
  hx.bind (fun _ _ h => by obtain ⟨⟨⟩, rfl⟩ := h; exact hf) fun _ h => by cases h.1

/-- A change of an agent of the roster that keeps whom it knows, whether it stopped and its
inbox changes its standing as its standing says. -/
theorem leads_change (hme : me ∈ Q.agents) {f : Node → Node} {g : Standing → Standing}
    (hf : ∀ n, (f n).member = n.member ∧ (f n).halted = n.halted ∧ (f n).inbox = n.inbox)
    (hg : ∀ n, n.standing = W me → (f n).standing = g n.standing) :
    Leads Q W (change me f) fun r W' => r = some () ∧ W' = W.set me g := by
  intro m hm hv
  have haddr : ∀ n, (f n).addr = n.addr := fun n => congrArg Member.addr (hf n).1
  refine ⟨hm.update haddr fun n hn => hn.congr (hf n).1 (hf n).2.1 (hf n).2.2, rfl, ?_⟩
  show (m.update me f).view = W.set me g
  rw [view_update haddr (hm.bound me hme) fun n hn => hg n (hv ▸ standing_of_find? hn), hv]

/-- A change of an agent that keeps its standing, whom it knows, whether it stopped and its
inbox finishes, and leaves the view as it was. -/
theorem leads_change_keep {f : Node → Node}
    (hf : ∀ n, (f n).member = n.member ∧ (f n).halted = n.halted ∧ (f n).inbox = n.inbox)
    (hg : ∀ n, n.standing = W me → (f n).standing = n.standing) :
    Leads Q W (change me f) fun r W' => r = some () ∧ W' = W := by
  intro m hm hv
  have haddr : ∀ n, (f n).addr = n.addr := fun n => congrArg Member.addr (hf n).1
  refine ⟨hm.update haddr fun n hn => hn.congr (hf n).1 (hf n).2.1 (hf n).2.2, rfl, ?_⟩
  show (m.update me f).view = W
  rw [view_update_of_standing haddr fun n hn => hg n (hv ▸ standing_of_find? hn), hv]

theorem quiet_change {f : Node → Node}
    (hf : ∀ n, (f n).member = n.member ∧ (f n).halted = n.halted ∧ (f n).inbox = n.inbox)
    (hg : ∀ n, (f n).standing = n.standing) : Quiet Q (change me f) := fun _ =>
  (leads_change_keep hf fun n _ => hg n).mono fun _ _ h => h.2

/-- A change of the mesh beside its agents. -/
theorem leads_modify {f : Mesh → Mesh} (hn : ∀ m, (f m).nodes = m.nodes)
    (hc : ∀ m, (f m).stopOnFatal = m.stopOnFatal) :
    Leads Q W (modify f) fun r W' => r = some () ∧ W' = W := by
  intro m hm hv
  have hview : (f m).view = m.view := by
    funext c
    simp only [view, find?, hn]
  refine ⟨⟨(hc m).trans hm.calm, fun b hb => ?_, fun n h => hm.nodes n (hn m ▸ h)⟩, rfl, ?_⟩
  · show b ∈ (f m).addrs
    simpa only [addrs, hn] using hm.bound b hb
  · show (f m).view = W
    rw [hview, hv]

theorem quiet_modify {f : Mesh → Mesh} (hn : ∀ m, (f m).nodes = m.nodes)
    (hc : ∀ m, (f m).stopOnFatal = m.stopOnFatal) : Quiet Q (modify f) := fun _ =>
  (leads_modify hn hc).mono fun _ _ h => h.2

/-- A mesh that stops no agent records a fault without stopping anyone. -/
theorem quiet_halt {e : Fault} : Quiet Q (modify (·.halt a e)) := by
  intro W m hm hv
  have h : m.halt a e = m := by simp [Mesh.halt, hm.calm]
  show (m.halt a e).Runs Q ∧ (m.halt a e).view = W
  rw [h]
  exact ⟨hm, hv⟩

/-- Pushing a message of the protocol to an agent of the roster adds its signal there. -/
theorem leads_send {d : Address} (hd : d ∈ Q.agents) {msg : Message} (hmsg : msg.Protocol) :
    Leads Q W (send d msg) fun r W' => r = some () ∧ W' = W.post d (Signal.ofFrame? msg.encode) := by
  intro m hm hv
  have hpush : m.push d msg.encode = .ok (m.update d fun n =>
      { n with inbox := n.inbox.push msg.encode }) := if_pos (hm.isBound hd)
  rw [Setting.send_run, hpush]
  refine ⟨hm.update (fun _ => rfl) fun n hn => hn.push hmsg, rfl, ?_⟩
  show (m.update d _).view = _
  rw [view_update (f := fun n => { n with inbox := n.inbox.push msg.encode })
    (g := (·.push (Signal.ofFrame? msg.encode))) (fun _ => rfl) (hm.bound d hd)
    (fun n _ => standing_push n msg.encode), hv]
  rfl

/-- Pushing a frame to the agent each item names, item after item. -/
theorem leads_forM_post {β : Type} {l : List β} {f : β → MeshM PUnit} {d : β → Address}
    {o : Address → Option Signal}
    (hf : ∀ x ∈ l, ∀ W, Leads Q W (f x) fun r W' => r = some () ∧ W' = W.post (d x) (o (d x))) :
    Leads Q W (l.forM f) fun r W' => r = some () ∧ W' = W.postAll (l.map d) o := by
  induction l generalizing W with
  | nil => exact leads_pure ⟨rfl, rfl⟩
  | cons x rest ih =>
    exact (hf x List.mem_cons_self W).seq
      (ih fun y hy => hf y (List.mem_cons_of_mem _ hy))

/-- Pushing a message of the protocol to each of a list of agents, in order. -/
theorem leads_forM_send {l : List Address} (hl : ∀ d ∈ l, d ∈ Q.agents)
    {msg : Address → Message} (hmsg : ∀ d, (msg d).Protocol) :
    Leads Q W (l.forM fun d => send d (msg d)) fun r W' =>
      r = some () ∧ W' = W.postAll l fun d => Signal.ofFrame? (msg d).encode := by
  have h := leads_forM_post (W := W) (l := l) (d := id)
    (o := fun d => Signal.ofFrame? (msg d).encode) fun d hd _ => leads_send (hl d hd) (hmsg d)
  rwa [List.map_id] at h

/-- Pushing a message of the protocol that carries no signal changes no view, delivered or
not. -/
theorem quiet_send {d : Address} {msg : Message} (hmsg : msg.Protocol)
    (hs : Signal.ofFrame? msg.encode = none) : Quiet Q (send d msg) := by
  intro W m hm hv
  rw [Setting.send_run]
  unfold Mesh.push
  split_ifs with hb
  · refine ⟨hm.update (fun _ => rfl) fun n hn => hn.push hmsg, ?_⟩
    show (m.update d _).view = W
    rw [view_update_of_standing (f := fun n => { n with inbox := n.inbox.push msg.encode })
      (fun _ => rfl) fun n _ => by rw [standing_push, hs, Standing.push_none], hv]
  · exact ⟨hm, hv⟩

theorem quiet_onShard {op : ShardOp α} : Quiet Q (onShard me op) := by
  intro W m hm hv
  -- whether the operation finishes or fails, only the shard changes
  have hkeep : ∀ s : Shard, (m.update me fun n => { n with shard := s }).Runs Q ∧
      (m.update me fun n => { n with shard := s }).view = W := fun s =>
    ⟨hm.update (fun _ => rfl) fun _ hn => hn.congr rfl rfl rfl,
      (view_update_of_standing (f := fun n => { n with shard := s }) (fun _ => rfl)
        fun _ _ => rfl).trans hv⟩
  dsimp only [Mesh.onShard]
  split
  · exact hkeep _
  · exact hkeep _

end Primitives

/-! ### Writes -/

/-- A write is pushed as a message of the protocol. -/
theorem Mutation.toMessage_protocol (mu : Mutation) : mu.toMessage.Protocol := by
  cases mu <;> rfl

section Writes

variable {Q : Roster} {me : Address} {onward : Mutation → MeshM Unit}

open Agent

theorem quiet_applyNow (hroute : ∀ mu, Quiet Q (onward mu)) (mu : Mutation) :
    Quiet Q (applyNow onward me mu) :=
  quiet_onShard.bind fun _ => quiet_forM fun mu _ => hroute mu

/-- Taking a write, held, staged, applied or answered by a wake, moves no agent. -/
theorem quiet_accept (hroute : ∀ mu, Quiet Q (onward mu)) (mu : Mutation) :
    Quiet Q (accept onward me mu) := by
  unfold accept
  refine quiet_nodeOf.bind fun n => ?_
  split
  · exact quiet_change (fun _ => ⟨rfl, rfl, rfl⟩) fun _ => rfl
  · split
    · refine quiet_onShard.bind fun r => ?_
      split
      · exact hroute _
      · exact quiet_pure
    · split
      · exact quiet_applyNow hroute _
      · exact quiet_onShard
    · split
      · exact quiet_applyNow hroute _
      · exact quiet_onShard

/-- Placing a write, here or at its owner, and what it causes, moves no agent. -/
theorem quiet_place : ∀ (fuel : Nat) (mu : Mutation) (own : Bool), Quiet Q (place me fuel mu own)
  | 0, _, _ => quiet_pure
  | fuel + 1, mu, own => by
    rw [place.eq_def]
    dsimp only
    -- a new entry draws its key first, any other write keeps its own
    split
    refine quiet_onShard.bind fun _ => quiet_pure.bind fun mu => ?_
    rotate_left
    refine quiet_pure.bind fun mu => ?_
    -- then the write goes here or to its owner
    all_goals
      refine quiet_nodeOf.bind fun n => quiet_lift.bind fun owner => ?_
      split
      · exact quiet_accept (fun mu => quiet_place fuel mu true) _
      · split
        · exact quiet_throw
        · exact (quiet_send (Mutation.toMessage_protocol _) (Signal.ofFrame?_toMessage _)).bind
            fun _ => quiet_change (fun _ => ⟨rfl, rfl, rfl⟩) fun _ => rfl

theorem quiet_route (mu : Mutation) : Quiet Q (route me mu) := quiet_place 4 mu true

theorem quiet_routeAll (ms : List Mutation) : Quiet Q (routeAll me ms) :=
  quiet_forM fun mu _ => quiet_route mu

end Writes

end ShardStore
