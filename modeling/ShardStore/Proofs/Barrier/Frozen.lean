import ShardStore.Proofs.Barrier.Delivery
import ShardStore.Proofs.Shard.Wakes
/-!
Steps that leave the committed stores alone.

An agent writes to its committed store in two ways only: it applies a write at once, which it
does when idle or closing a stage, and it commits what it staged, at the end of the barrier that
closes a stage. In the other stages (the sweep, the wait for everyone's writes, the graph stage)
it stages what it takes or holds it back, and a sweep, a round of the graph engine, a report, a
count or an arrival writes to no store at all.

`Freezes me x` says that the change `x`, started with the agent at `me` in such a stage, keeps
every agent's store and leaves `me` in such a stage, finished or failed. The lemmas below say so
of every handler of a message agents push to each other, with the end of a barrier taken in the
wait for writes the one exception, and of every write or read a client may ask for. A read may
go on to the responder of the key's owner, or to another agent, and changes nothing anywhere.
-/

namespace ShardStore

/-- The stages in which an agent stages or holds back what it takes instead of applying it. -/
def Phase.stages : Phase → Bool
  | .stageBegin | .stageProcessed | .stageAlgProcess => true
  | .preload | .stageClosing => false

/-- The type bytes of the requests that only read: counts, lists, stages and entries. -/
def Message.readByte (t : UInt8) : Bool :=
  t == 0xa1 || t == 0xa3 || t == 0xa5 || t == 0xb5 || t == 0xbb || t == 0xc0 || t == 0xc1 ||
    t == 0xc5 || t == 0xc6 || t == 0xc7 || t == 0xd1

/-- A request a client may make while a run goes on: a write, or a read. -/
def Message.Data (msg : Message) : Prop :=
  (Message.writeByte msg.typeByte || Message.readByte msg.typeByte) = true

instance (msg : Message) : Decidable msg.Data := inferInstanceAs (Decidable (_ = true))

/-- A frame written for a write or a read decodes, if at all, to one. -/
theorem Message.Data.decode {msg msg' : Message} (h : msg.Data)
    (hd : Message.decode msg.encode = .ok msg') : msg'.Data := by
  unfold Message.Data
  rw [Message.typeByte_of_decode_encode hd]
  exact h

theorem Message.eq_getEntryByKey_of_typeByte {msg : Message} (h : msg.typeByte = 0xbb) :
    ∃ k, msg = .getEntryByKey k := by
  cases msg <;> simp_all [Message.typeByte]

namespace Mesh

/-- The agent bound at an address, as a change reads it. -/
def nodeAt (m : Mesh) (a : Address) : Node := (m.find? a).getD default

/-- Every agent's committed store. -/
def stores (m : Mesh) (a : Address) : EntryStore := (m.nodeAt a).shard.store

theorem nodeAt_update {m : Mesh} {a : Address} {f : Node → Node} (hf : ∀ n, (f n).addr = n.addr)
    (c : Address) :
    (m.update a f).nodeAt c = if c = a then ((m.find? a).map f).getD default else m.nodeAt c := by
  simp only [nodeAt, find?_update hf]
  split <;> rfl

/-- What a change of the agents at one address keeps of the one found there, the agent at any
address keeps. -/
theorem nodeAt_update_of {m : Mesh} {a : Address} {f : Node → Node}
    (hf : ∀ n, (f n).addr = n.addr) {P : Node → Prop} (hP : ∀ n, m.find? a = some n → P n → P (f n))
    {c : Address} (h : P (m.nodeAt c)) : P ((m.update a f).nodeAt c) := by
  rw [nodeAt_update hf]
  split
  · rename_i hc
    subst hc
    cases hfa : m.find? c with
    | none => simpa [nodeAt, hfa] using h
    | some n =>
      rw [Option.map_some, Option.getD_some]
      exact hP n hfa (by simpa [nodeAt, hfa] using h)
  · exact h

/-- What only reads the agents keeps every store and every stage. -/
theorem nodeAt_of_nodes {m m' : Mesh} (h : m'.nodes = m.nodes) (c : Address) :
    m'.nodeAt c = m.nodeAt c := by
  simp only [nodeAt, find?, h]

end Mesh

namespace Shard

theorem store_assignKey (e : Entry) (s : Shard) : (endState (assignKey e s)).store = s.store := by
  rw [assignKey_run]
  rfl

theorem store_subscribe (sub w : Key) (r : Wake) (s : Shard) :
    (endState (subscribe sub w r s)).store = s.store := by
  cases hw : s.store.contains w
  · rw [subscribe_absent hw]
    rfl
  · rw [subscribe_held hw]
    rfl

/-- Staging anything but a subscription holds it and keeps the store. -/
theorem store_stage {mu : Mutation} (hns : ∀ s w r, mu ≠ .subscribe s w r) (s : Shard) :
    (endState (stage mu s)).store = s.store := by
  by_cases he : ∃ e, mu = .addEntry e
  · obtain ⟨e, rfl⟩ := he
    rw [stage_addEntry, bind_run (assignKey_run e s)]
    rfl
  · rw [stage_of_change hns fun e h => he ⟨e, h⟩]
    rfl

end Shard

/-! ### Frozen stores -/

/-- Every agent's store is `σ`, and the agent at `me` stages what it takes. -/
def Frozen (me : Address) (σ : Address → EntryStore) (m : Mesh) : Prop :=
  m.stores = σ ∧ (m.nodeAt me).phase.stages = true

/-- Started with the agent at `me` staging what it takes, the change `x` keeps every agent's
store and leaves `me` staging, finished or failed. -/
def Freezes {α : Type} (me : Address) (x : MeshM α) : Prop :=
  ∀ σ, Triple (Frozen me σ) x (fun _ => Frozen me σ) (Frozen me σ)

namespace Frozen

variable {me : Address} {σ : Address → EntryStore} {m : Mesh}

/-- Changing the agents at one address, keeping their addresses, the store of the one found
there and its staging, keeps the stores frozen. -/
theorem update (h : Frozen me σ m) {a : Address} {f : Node → Node}
    (haddr : ∀ n, (f n).addr = n.addr)
    (hf : ∀ n, m.find? a = some n →
      (f n).shard.store = n.shard.store ∧ (n.phase.stages = true → (f n).phase.stages = true)) :
    Frozen me σ (m.update a f) := by
  refine ⟨?_, Mesh.nodeAt_update_of haddr (fun n hn => (hf n hn).2) h.2⟩
  rw [← h.1]
  funext c
  exact Mesh.nodeAt_update_of (P := fun n => n.shard.store = m.stores c) haddr
    (fun n hn he => (hf n hn).1.trans he) rfl

/-- A change of the mesh beside its agents keeps the stores frozen. -/
theorem of_nodes (h : Frozen me σ m) {m' : Mesh} (hn : m'.nodes = m.nodes) : Frozen me σ m' := by
  refine ⟨?_, ?_⟩
  · rw [← h.1]
    funext c
    simp only [Mesh.stores, Mesh.nodeAt_of_nodes hn]
  · rw [Mesh.nodeAt_of_nodes hn]
    exact h.2

end Frozen

section Primitives

variable {me : Address} {α β : Type}

open Mesh

theorem freezes_pure (a : α) : Freezes me (pure a : MeshM α) := fun _ => Triple.pure fun _ h => h

theorem freezes_throw (e : Fault) : Freezes me (throw e : MeshM α) :=
  fun _ => Triple.throw fun _ h => h

theorem Freezes.bind {x : MeshM α} {f : α → MeshM β} (hx : Freezes me x)
    (hf : ∀ a, Freezes me (f a)) : Freezes me (x >>= f) := fun σ => (hx σ).bind fun a => hf a σ

theorem freezes_tryCatch {x : MeshM α} {h : Fault → MeshM α} (hx : Freezes me x)
    (hh : ∀ e, Freezes me (h e)) : Freezes me (tryCatch x h) := fun σ =>
  (hx σ).tryCatch fun e => hh e σ

theorem freezes_forM {l : List α} {f : α → MeshM PUnit} (hf : ∀ a ∈ l, Freezes me (f a)) :
    Freezes me (l.forM f) := by
  induction l with
  | nil => exact freezes_pure _
  | cons a rest ih =>
    exact (hf a List.mem_cons_self).bind fun _ => ih fun b hb => hf b (List.mem_cons_of_mem _ hb)

theorem freezes_foldlM {γ : Type} {l : List γ} {f : α → γ → MeshM α}
    (hf : ∀ acc x, Freezes me (f acc x)) (init : α) : Freezes me (l.foldlM f init) := by
  induction l generalizing init with
  | nil => exact freezes_pure _
  | cons x rest ih => exact (hf init x).bind fun _ => ih _

theorem freezes_foldlM_array {γ : Type} {l : Array γ} {f : α → γ → MeshM α}
    (hf : ∀ acc x, Freezes me (f acc x)) (init : α) : Freezes me (l.foldlM f init) := by
  rw [← Array.foldlM_toList]
  exact freezes_foldlM hf init

/-- Reading the whole mesh, then going on with it. -/
theorem Freezes.get_bind {f : Mesh → MeshM β} (hf : ∀ m, Freezes me (f m)) :
    Freezes me (get >>= f) :=
  fun σ => Triple.get_bind fun m hm => (hf m σ).conseq (fun _ h => h ▸ hm) (fun _ _ h => h)
    fun _ h => h

/-- Reading the agent that stages, then going on with it. -/
theorem Freezes.nodeOf_self_bind {f : Node → MeshM β}
    (hf : ∀ n, n.phase.stages = true → Freezes me (f n)) : Freezes me (Mesh.nodeOf me >>= f) :=
  fun σ m hm => hf (m.nodeAt me) hm.2 σ m hm

/-- Reading any agent, then going on with it. -/
theorem Freezes.nodeOf_bind {c : Address} {f : Node → MeshM β} (hf : ∀ n, Freezes me (f n)) :
    Freezes me (Mesh.nodeOf c >>= f) :=
  fun σ m hm => hf (m.nodeAt c) σ m hm

theorem freezes_lift (o : Outcome α) : Freezes me (Mesh.lift o) := by
  cases o with
  | ok x => exact freezes_pure x
  | error e => exact freezes_throw e

/-- A change of the mesh beside its agents. -/
theorem freezes_modify {f : Mesh → Mesh} (hf : ∀ m, (f m).nodes = m.nodes) :
    Freezes me (modify f : MeshM PUnit) :=
  fun _ => Triple.modify fun m hm => hm.of_nodes (hf m)

/-- Changing an agent, keeping its address and store, and keeping the agent that stages
staging. -/
theorem freezes_change {a : Address} {f : Node → Node}
    (hf : ∀ n, (f n).member = n.member ∧ (f n).shard.store = n.shard.store ∧
      (n.phase.stages = true → (f n).phase.stages = true)) :
    Freezes me (Mesh.change a f) :=
  fun _ => Triple.modify fun _ hm =>
    hm.update (fun n => congrArg Member.addr (hf n).1) fun n _ => (hf n).2

/-- Recording a fault changes no store and no stage. -/
theorem freezes_halt {a : Address} {e : Fault} :
    Freezes me (modify fun m : Mesh => m.halt a e) := by
  refine fun _ => Triple.modify fun m hm => ?_
  unfold Mesh.halt
  split
  · exact hm.update (fun _ => rfl) fun _ _ => ⟨rfl, id⟩
  · exact hm

/-- A shard operation that keeps the store, finished or failed. -/
theorem freezes_onShard {a : Address} {op : ShardOp α}
    (hop : ∀ s, (endState (op s)).store = s.store) : Freezes me (Mesh.onShard a op) := by
  intro σ m hm
  have hkeep : ∀ (s : Shard), s.store = (m.nodeAt a).shard.store →
      Frozen me σ (m.update a fun n => { n with shard := s }) := fun s hs =>
    hm.update (fun _ => rfl) fun n hn => ⟨by rw [hs]; simp [Mesh.nodeAt, hn], id⟩
  have hs : (endState (op ((m.find? a).getD default).shard)).store =
      ((m.find? a).getD default).shard.store := hop _
  dsimp only [Mesh.onShard]
  split
  · rename_i x s hx
    rw [hx] at hs
    exact hkeep s hs
  · rename_i e s hx
    rw [hx] at hs
    exact hkeep s hs

/-- Pushing a message fills an inbox only. -/
theorem freezes_send (dest : Address) (msg : Message) : Freezes me (Mesh.send dest msg) := by
  intro σ m hm
  show Meets _ _ (Mesh.send dest msg m)
  rw [Setting.send_run]
  by_cases hb : m.isBound dest = true
  · rw [Mesh.push, if_pos hb]
    exact hm.update (fun _ => rfl) fun _ _ => ⟨rfl, id⟩
  · rw [Mesh.push, if_neg hb]
    exact hm

end Primitives

/-! ### Writes -/

section Writes

variable {me : Address}

open Agent Mesh

/-- A staging agent is neither idle nor closing. -/
theorem Phase.ne_of_stages {p : Phase} (h : p.stages = true) : p ≠ .preload ∧ p ≠ .stageClosing := by
  cases p <;> simp_all [Phase.stages]

/-- Taking a write while staging holds it back, stages it, or records a subscription and routes
its wake on; it is never applied at once. -/
theorem freezes_accept {route : Mutation → MeshM Unit} (hroute : ∀ mu, Freezes me (route mu))
    (mu : Mutation) : Freezes me (accept route me mu) := by
  unfold accept
  refine Freezes.nodeOf_self_bind fun n hn => ?_
  have hne := Phase.ne_of_stages hn
  split
  · exact freezes_change (by exact fun _ => ⟨rfl, rfl, id⟩)
  · split
    · refine (freezes_onShard (Shard.store_subscribe _ _ _)).bind fun r => ?_
      split
      · exact hroute _
      · exact freezes_pure _
    · split
      · rename_i hc
        exact absurd (beq_iff_eq.mp hc) hne.2
      · exact freezes_onShard (Shard.store_stage fun _ _ _ h => by cases h)
    · split
      · rename_i hc
        rcases Bool.or_eq_true_iff.mp hc with hc | hc
        · exact absurd (beq_iff_eq.mp hc) hne.1
        · exact absurd (beq_iff_eq.mp hc) hne.2
      · rename_i hsub _ _
        exact freezes_onShard (Shard.store_stage fun s w r h => hsub s w r h)

/-- Placing a write while staging: it gets its key, and is taken here or pushed to its owner. -/
theorem freezes_place : ∀ (fuel : Nat) (mu : Mutation) (own : Bool),
    Freezes me (place me fuel mu own)
  | 0, _, _ => freezes_pure _
  | fuel + 1, mu, own => by
    rw [place.eq_def]
    dsimp only
    -- a new entry draws its key first, any other write keeps its own
    split
    refine (freezes_onShard (Shard.store_assignKey _)).bind fun _ =>
      (freezes_pure _).bind fun mu => ?_
    rotate_left
    refine (freezes_pure _).bind fun mu => ?_
    all_goals
      refine Freezes.nodeOf_self_bind fun n _ => (freezes_lift _).bind fun owner => ?_
      split
      · exact freezes_accept (fun mu => freezes_place fuel mu true) _
      · split
        · exact freezes_throw _
        · exact (freezes_send _ _).bind fun _ => freezes_change (by exact fun _ => ⟨rfl, rfl, id⟩)

theorem freezes_route (mu : Mutation) : Freezes me (route me mu) := freezes_place 4 mu true

theorem freezes_routeAll (ms : List Mutation) : Freezes me (routeAll me ms) :=
  freezes_forM fun mu _ => freezes_route mu

end Writes

/-! ### Barriers and rounds -/

section Handlers

variable {me : Address}

open Agent Mesh

theorem freezes_arrive : Freezes me (arrive me) :=
  Freezes.nodeOf_bind fun _ => (freezes_lift _).bind fun _ => freezes_send _ _

theorem freezes_countRecv : Freezes me (countRecv me) := by
  unfold countRecv
  refine Freezes.nodeOf_bind fun n => ?_
  split
  refine (freezes_change (by exact fun _ => ⟨rfl, rfl, id⟩)).bind fun _ => ?_
  split
  · exact freezes_arrive
  · exact freezes_pure _

/-- A write arrives while staging: placed, counted if pushed by a peer, failed or not. -/
theorem freezes_onMutation (mu : Mutation) (origin : Origin) :
    Freezes me (onMutation me mu origin) := by
  unfold onMutation
  refine (freezes_tryCatch ((freezes_place 4 mu false).bind fun _ => freezes_pure _)
    fun _ => freezes_pure _).bind fun failed => ?_
  dsimp only
  -- counted or not, the failure is passed on
  split
  · refine freezes_countRecv.bind fun _ => ?_
    split
    · exact freezes_throw _
    · exact freezes_pure _
  · split
    · exact freezes_throw _
    · exact freezes_pure _

theorem freezes_startBarrierWait : Freezes me (startBarrierWait me) := by
  unfold startBarrierWait
  refine Freezes.nodeOf_bind fun n => (freezes_lift _).bind fun _ => ?_
  split
  exact (freezes_change (by exact fun _ => ⟨rfl, rfl, id⟩)).bind fun _ => freezes_send _ _

theorem freezes_finishStage : Freezes me (finishStage me) :=
  (freezes_change (by exact fun _ => ⟨rfl, rfl, fun _ => rfl⟩)).bind fun _ => freezes_startBarrierWait

theorem freezes_broadcast (msg : Message) : Freezes me (broadcast me msg) :=
  Freezes.nodeOf_bind fun _ => freezes_forM fun _ _ => freezes_send _ _

theorem freezes_onProcess (fresh : Bool) : Freezes me (onProcess me fresh) := by
  have hgo : Freezes me (do
      change me fun n => { n with phase := .stageBegin, again := false }
      startBarrierWait me) :=
    (freezes_change (by exact fun _ => ⟨rfl, rfl, fun _ => rfl⟩)).bind fun _ => freezes_startBarrierWait
  unfold onProcess
  split
  · refine Freezes.nodeOf_bind fun _ => (freezes_lift _).bind fun _ => ?_
    split
    · exact (freezes_change (by exact fun _ => ⟨rfl, rfl, id⟩)).bind fun _ => hgo
    · exact hgo
  · exact hgo

theorem freezes_onAlgProcess : Freezes me (onAlgProcess me) :=
  (freezes_change (by exact fun _ => ⟨rfl, rfl, fun _ => rfl⟩)).bind fun _ => freezes_startBarrierWait

/-- A sweep reads the stores and routes what the filters wrote, staging it. -/
theorem freezes_runSweep : Freezes me (runSweep me) :=
  Freezes.get_bind fun _ => Freezes.nodeOf_bind fun _ => (freezes_lift _).bind fun _ =>
    (freezes_change (by exact fun _ => ⟨rfl, rfl, id⟩)).bind fun _ =>
      (freezes_routeAll _).bind fun _ => freezes_finishStage

theorem freezes_onBarrierReport (sender : Address) (again : Bool)
    (sent : List (Address × UInt64)) : Freezes me (onBarrierReport me sender again sent) := by
  unfold onBarrierReport
  refine Freezes.nodeOf_bind fun n => ?_
  split
  refine (freezes_change (by exact fun _ => ⟨rfl, rfl, id⟩)).bind fun _ => ?_
  split
  · exact freezes_forM fun _ _ => freezes_send _ _
  · exact freezes_pure _

theorem freezes_onAtBarrier (sender : Address) : Freezes me (onAtBarrier me sender) := by
  unfold onAtBarrier
  refine Freezes.nodeOf_bind fun n => ?_
  split
  refine (freezes_change (by exact fun _ => ⟨rfl, rfl, id⟩)).bind fun _ => ?_
  split
  · exact freezes_broadcast _
  · exact freezes_pure _

theorem freezes_sendVertices : Freezes me (sendVertices me) :=
  Freezes.nodeOf_bind fun _ => (freezes_foldlM (fun _ _ => (freezes_lift _).bind fun _ =>
    freezes_pure _) _).bind fun _ => freezes_forM fun _ _ => freezes_send _ _

theorem freezes_routeEffects (effects : List Mutation) : Freezes me (routeEffects me effects) :=
  (freezes_change (by exact fun _ => ⟨rfl, rfl, id⟩)).bind fun _ => freezes_routeAll _

/-- A round of the graph engine reads the stores and routes what the vertex programs wrote. -/
theorem freezes_algRound : Freezes me (algRound me) := by
  unfold algRound
  refine Freezes.get_bind fun _ => Freezes.nodeOf_bind fun _ => ?_
  split
  refine (freezes_change (by exact fun _ => ⟨rfl, rfl, id⟩)).bind fun _ => (freezes_lift _).bind fun _ =>
    (freezes_routeEffects _).bind fun _ => Freezes.nodeOf_bind fun _ => ?_
  exact (freezes_foldlM_array (fun _ _ => (freezes_lift _).bind fun _ => freezes_pure _) _).bind
    fun _ => freezes_forM fun _ _ => freezes_send _ _

theorem freezes_onAlgVertices (sender : Address) (vs : List Vertex) :
    Freezes me (onAlgVertices me sender vs) := by
  unfold onAlgVertices
  refine (freezes_change (by exact fun _ => ⟨rfl, rfl, id⟩)).bind fun _ => Freezes.nodeOf_bind fun n => ?_
  split
  refine (freezes_change (by exact fun _ => ⟨rfl, rfl, id⟩)).bind fun _ => ?_
  split
  · refine Freezes.get_bind fun _ => Freezes.nodeOf_bind fun _ => ?_
    split
    exact (freezes_change (by exact fun _ => ⟨rfl, rfl, id⟩)).bind fun _ => (freezes_lift _).bind fun _ =>
      (freezes_routeEffects _).bind fun _ => freezes_algRound
  · exact freezes_pure _

theorem freezes_onAlgCompute (sender : Address) (active : Bool) (iter : UInt64)
    (ms : List VertexMessage) : Freezes me (onAlgCompute me sender active iter ms) := by
  unfold onAlgCompute
  refine (freezes_change (by exact fun _ => ⟨rfl, rfl, id⟩)).bind fun _ => Freezes.nodeOf_bind fun n => ?_
  split
  · split
    refine (freezes_change (by exact fun _ => ⟨rfl, rfl, id⟩)).bind fun _ => ?_
    split
    · exact freezes_pure _
    · exact freezes_algRound
    · exact (freezes_change (by exact fun _ => ⟨rfl, rfl, id⟩)).bind fun _ => freezes_finishStage
  · exact freezes_pure _

end Handlers

/-! ### Reads -/

section Reads

variable {me : Address}

open Agent Mesh

/-- A by-key read at any agent is answered from its store or passed to the owner's responder. -/
theorem freezes_getEntryByKey {call : Call} (hcall : ∀ d k, Freezes me (call d (.getEntryByKey k)))
    (c : Address) (k : Key) : Freezes me (getEntryByKey call c k) := by
  unfold getEntryByKey
  refine Freezes.nodeOf_bind fun _ => (freezes_lift _).bind fun _ => ?_
  split
  · exact freezes_pure _
  · exact hcall _ _

/-- A frame written for a by-key read, handled at any agent: a frame written for one decodes, if
at all, to one. -/
theorem freezes_dispatch_read {call : Call} (hcall : ∀ d k, Freezes me (call d (.getEntryByKey k)))
    (c : Address) (k : Key) (origin : Origin) :
    Freezes me (dispatch call c (Message.getEntryByKey k).encode origin) := by
  refine Freezes.bind ?_ fun r => ?_
  · unfold handleFrame
    split
    · exact freezes_pure _
    · rename_i msg hd
      obtain ⟨k', rfl⟩ := Message.eq_getEntryByKey_of_typeByte (Message.typeByte_of_decode_encode hd)
      exact freezes_tryCatch ((freezes_getEntryByKey hcall c k').bind fun _ => freezes_pure _)
        fun _ => freezes_pure _
  · split
    · exact freezes_pure _
    · exact freezes_pure _

/-- A by-key read is answered by a responder, or handled at once by an idle agent, which asks
on in turn; each level of fuel is one level of requests. -/
theorem freezes_request_read (fuel : Nat) (dest : Address) (k : Key) :
    Freezes me (request fuel dest (.getEntryByKey k)) := by
  induction fuel generalizing dest k with
  | zero => exact freezes_throw _
  | succ fuel ih =>
    unfold Agent.request
    refine Freezes.get_bind fun m => ?_
    extract_lets finish
    -- the reply read off the bytes, whoever answered
    have hfinish : ∀ bytes, Freezes me (finish bytes) := fun _ => by
      dsimp only [finish]
      split
      · exact freezes_lift _
      · exact freezes_throw _
    split
    · exact (freezes_pure _).bind hfinish
    · split
      · exact (freezes_throw _).bind hfinish
      · split
        · refine (freezes_modify (by exact fun _ => rfl)).bind fun _ =>
            (freezes_dispatch_read (fun d k => ih d k) dest k .client).bind fun r => ?_
          split
          refine (freezes_modify (by exact fun _ => rfl)).bind fun _ => ?_
          extract_lets answer
          have hanswer : ∀ u, Freezes me (answer u) := fun _ => (freezes_pure _).bind hfinish
          split
          · exact freezes_halt.bind hanswer
          · exact hanswer ()
        · exact (freezes_throw _).bind hfinish

theorem freezes_call_read (dest : Address) (k : Key) : Freezes me (call dest (.getEntryByKey k)) :=
  Freezes.get_bind fun _ => freezes_request_read _ _ _

end Reads

/-! ### Frames -/

/-- A write or a read carries no signal of the barrier protocol. -/
theorem Message.Data.signalByte {msg : Message} (h : msg.Data) :
    Message.signalByte msg.typeByte = false := by
  cases msg <;> first | rfl | exact absurd h Bool.false_ne_true

section Frames

variable {me : Address} {σ : Address → EntryStore} {α : Type}

open Agent Mesh

theorem Triple.nodeOf_bind {β : Type} {c : Address} {P : Mesh → Prop} {f : Node → MeshM β}
    {Q : β → Mesh → Prop} {E : Mesh → Prop}
    (h : ∀ m, P m → Triple (· = m) (f (m.nodeAt c)) Q E) : Triple P (Mesh.nodeOf c >>= f) Q E :=
  fun m hm => h m hm m rfl

/-- The end of a barrier, taken while staging but not in the wait for writes: the sweep runs, or
the vertex lists of the graph stage go out. -/
theorem frozen_onEndBarrier :
    Triple (fun m => Frozen me σ m ∧ (m.nodeAt me).phase ≠ .stageProcessed) (onEndBarrier me)
      (fun _ => Frozen me σ) (Frozen me σ) := by
  unfold onEndBarrier
  refine Triple.bind (R := fun _ m => Frozen me σ m ∧ (m.nodeAt me).phase ≠ .stageProcessed)
    (Triple.modify fun m hm => ?_) fun _ => ?_
  · -- the wait is over, and nothing else changes
    exact ⟨hm.1.update (fun _ => rfl) fun _ _ => ⟨rfl, id⟩,
      Mesh.nodeAt_update_of (P := fun n => n.phase ≠ .stageProcessed) (by exact fun _ => rfl)
        (by exact fun _ _ => id) hm.2⟩
  refine Triple.nodeOf_bind fun m hm => ?_
  have hne := Phase.ne_of_stages hm.1.2
  have hrest : ∀ {x : MeshM Unit}, Freezes me x → Triple (· = m) x (fun _ => Frozen me σ)
      (Frozen me σ) := fun hx => (hx σ).conseq (fun _ h => h ▸ hm.1) (fun _ _ h => h) fun _ h => h
  split
  · rename_i hp
    exact absurd hp hne.1
  · exact hrest freezes_runSweep
  · rename_i hp
    exact absurd hp hm.2
  · rename_i hp
    exact absurd hp hne.2
  · exact hrest freezes_sendVertices


/-- Every write, read or message of the protocol but the end of a barrier, handled while
staging. -/
theorem freezes_handle {call : Call} (hcall : ∀ d k, Freezes me (call d (.getEntryByKey k)))
    {msg : Message} (hmsg : msg.Protocol ∨ msg.Data) (hend : msg ≠ .endBarrier)
    (origin : Origin) : Freezes me (handle call me msg origin) := by
  have hack : ∀ {β : Type} {x : MeshM β}, Freezes me x →
      Freezes me (x >>= fun _ => pure Reply.ack) := fun hx => hx.bind fun _ => freezes_pure _
  have hread : ∀ {f : Node → Reply}, Freezes me (Mesh.nodeOf me >>= fun n => pure (f n)) :=
    Freezes.nodeOf_bind fun _ => freezes_pure _
  cases msg
  case numNeighbors | getNeighbors | ringSize | dbSize | getState | processing | query
    | getEntries | installedFilters => exact hread
  case printEntries => exact freezes_pure _
  case addEntry | addTag | removeTag | updateValue | subscribe => exact hack (freezes_onMutation _ _)
  case getEntryByKey k => exact freezes_getEntryByKey hcall me k
  case process fresh => exact hack (freezes_onProcess fresh)
  case algProcess => exact hack freezes_onAlgProcess
  case startBarrierWait b g sent => exact hack (freezes_onBarrierReport b g sent)
  case barrierMsgDist k =>
    refine Freezes.nodeOf_bind fun n => ?_
    split
    refine (freezes_change (by exact fun _ => ⟨rfl, rfl, id⟩)).bind fun _ => ?_
    split
    · exact hack freezes_arrive
    · exact freezes_pure _
  case atBarrier b => exact hack (freezes_onAtBarrier b)
  case endBarrier => exact absurd rfl hend
  case algVertices b vs => exact hack (freezes_onAlgVertices b vs)
  case algInternalCompute b active iter ms => exact hack (freezes_onAlgCompute b active iter ms)
  -- nothing else is a write, a read or the protocol's
  all_goals rcases hmsg with h | h <;> exact absurd h Bool.false_ne_true

/-- A frame of the protocol, a write or a read, decoded and handled while staging, and not in
the wait for writes if it ends a barrier. -/
theorem frozen_handleFrame {call : Call} (hcall : ∀ d k, Freezes me (call d (.getEntryByKey k)))
    {frame : Bytes} (hf : ∀ msg, Message.decode frame = .ok msg → msg.Protocol ∨ msg.Data)
    (origin : Origin) :
    Triple (fun m => Frozen me σ m ∧
        (Signal.ofFrame? frame = some .endBarrier → (m.nodeAt me).phase ≠ .stageProcessed))
      (handleFrame call me frame origin) (fun _ => Frozen me σ) (Frozen me σ) := by
  unfold handleFrame
  split
  · exact Triple.pure fun _ h => h.1
  · rename_i msg hd
    -- a failure of the handler is answered, from where it left the stores
    refine Triple.tryCatch (R := Frozen me σ) (Triple.bind (R := fun _ => Frozen me σ) ?_
      fun _ => Triple.pure fun _ h => h) fun _ => Triple.pure fun _ h => h
    by_cases hend : msg = .endBarrier
    · subst hend
      have hsig : Signal.ofFrame? frame = some .endBarrier := Signal.ofFrame?_of_decode hd
      exact (frozen_onEndBarrier.conseq (fun _ h => ⟨h.1, h.2 hsig⟩) (fun _ _ h => h)
        fun _ h => h).bind fun _ => Triple.pure fun _ h => h
    · exact (freezes_handle hcall (hf msg hd) hend origin σ).conseq (fun _ h => h.1)
        (fun _ _ h => h) fun _ h => h

theorem frozen_dispatch {call : Call} (hcall : ∀ d k, Freezes me (call d (.getEntryByKey k)))
    {frame : Bytes} (hf : ∀ msg, Message.decode frame = .ok msg → msg.Protocol ∨ msg.Data)
    (origin : Origin) :
    Triple (fun m => Frozen me σ m ∧
        (Signal.ofFrame? frame = some .endBarrier → (m.nodeAt me).phase ≠ .stageProcessed))
      (dispatch call me frame origin) (fun _ => Frozen me σ) (Frozen me σ) := by
  refine (frozen_handleFrame hcall hf origin).bind fun r => ?_
  split <;> exact Triple.pure fun _ h => h

/-- Marking an agent busy changes no agent. -/
theorem frozen_whileBusy {R : Node → Prop} {x : MeshM α}
    (hx : Triple (fun m => Frozen me σ m ∧ R (m.nodeAt me)) x (fun _ => Frozen me σ) (Frozen me σ))
    (a : Address) :
    Triple (fun m => Frozen me σ m ∧ R (m.nodeAt me)) (Mesh.whileBusy a x) (fun _ => Frozen me σ)
      (Frozen me σ) := by
  unfold Mesh.whileBusy
  refine Triple.bind (R := fun _ m => Frozen me σ m ∧ R (m.nodeAt me))
    (Triple.modify fun m hm => ?_) fun _ => hx.bind fun r =>
      ((freezes_modify (by exact fun _ => rfl)) σ).bind fun _ => freezes_pure r σ
  exact ⟨hm.1.of_nodes rfl, by rw [Mesh.nodeAt_of_nodes rfl]; exact hm.2⟩

theorem Frozen.of_meets {r : EStateM.Result Fault Mesh α}
    (h : Meets (fun _ => Frozen me σ) (Frozen me σ) r) : Frozen me σ (endState r) := by
  cases r with
  | ok _ _ => exact h
  | error _ _ => exact h

end Frames

/-! ### Steps of a run -/

section Steps

variable {Q : Roster} {m : Mesh} {a : Address}

open Agent Mesh

/-- An agent of a running mesh, staging, takes the oldest frame of its inbox, which is not the
end of a barrier while it waits for writes: every store stays as it was. -/
theorem stores_handleNext (hm : m.Runs Q) (hst : a ∈ Q.agents → (m.nodeAt a).phase.stages = true)
    (hend : a ∈ Q.agents → m.nextSignal? a = some .endBarrier →
      (m.nodeAt a).phase ≠ .stageProcessed) :
    (endState (handleNext a m)).stores = m.stores := by
  rw [handleNext, Mesh.get_bind_apply]
  cases hpop : ((m.find? a).filter (·.halted.isNone)).bind (·.inbox.pop?) with
  | none => rfl
  | some p =>
    obtain ⟨frame, rest⟩ := p
    dsimp only
    obtain ⟨n, hfind, hpop'⟩ := Option.bind_eq_some_iff.mp hpop
    obtain ⟨hfind', -⟩ := Option.filter_eq_some_iff.mp hfind
    have hn : n ∈ m.nodes := Array.mem_of_find?_eq_some hfind'
    have hna : n.addr = a := by simpa using Array.find?_some hfind'
    have hrun := hm.nodes n hn
    have ha : a ∈ Q.agents := hna ▸ hrun.mem
    have hinbox := Inbox.toList_of_pop? hpop'
    have hfirst : frame ∈ n.inbox.toList := by
      rw [hinbox]
      exact List.mem_cons_self
    have hnext : m.nextSignal? a = Signal.ofFrame? frame := by
      simp [Mesh.nextSignal?, hfind', hinbox]
    -- taking the frame off the inbox keeps every store and the agent's stage
    have hpre : Frozen a m.stores (m.update a fun n => { n with inbox := rest }) ∧
        (Signal.ofFrame? frame = some .endBarrier →
          ((m.update a fun n => { n with inbox := rest }).nodeAt a).phase ≠ .stageProcessed) :=
      ⟨Frozen.update ⟨rfl, hst ha⟩ (fun _ => rfl) fun _ _ => ⟨rfl, id⟩, fun h =>
        Mesh.nodeAt_update_of (P := fun n => n.phase ≠ .stageProcessed) (by exact fun _ => rfl)
          (by exact fun _ _ => id) (hend ha (hnext.trans h))⟩
    rw [Mesh.set_bind_apply]
    refine (Frozen.of_meets (((frozen_whileBusy
      (R := fun n => Signal.ofFrame? frame = some .endBarrier → n.phase ≠ .stageProcessed)
      (frozen_handleFrame (fun d k => freezes_call_read d k)
        (fun msg hd => .inl (hrun.inbox frame hfirst msg hd)) .peer) a).bind fun r => ?_) _
      hpre)).1
    split
    · exact Triple.pure fun _ h => h
    · exact ((freezes_halt) m.stores).bind fun _ => Triple.pure fun _ h => h

/-- A client's write or read asked of an agent that stages keeps every store. -/
theorem stores_ask (hst : (m.nodeAt a).phase.stages = true) {msg : Message} (hmsg : msg.Data) :
    (endState (ask a msg.encode m)).stores = m.stores := by
  have hsig : Signal.ofFrame? msg.encode = none :=
    Signal.ofFrame?_encode_of_signalByte hmsg.signalByte
  unfold ask
  refine (Frozen.of_meets (((frozen_whileBusy
    (R := fun n => Signal.ofFrame? msg.encode = some .endBarrier → n.phase ≠ .stageProcessed)
    (frozen_dispatch (fun d k => freezes_call_read d k) (fun msg' hd => .inr (hmsg.decode hd))
      .client) a).bind fun r => ?_) m ⟨⟨rfl, hst⟩, fun h => by rw [hsig] at h; cases h⟩)).1
  obtain ⟨reply, fatal⟩ := r
  dsimp only
  split
  · exact ((freezes_halt) m.stores).bind fun _ => Triple.pure fun _ h => h
  · exact Triple.pure fun _ h => h

end Steps

end ShardStore
