import ShardStore.Proofs.Barrier.Protocol
import Mathlib.Data.List.Perm.Subperm
/-!
Lock-step barriers.

A run of the protocol is a sequence of barriers, each of a kind: the sweep of a single-entry
round, the wait for everyone's writes, the closing stage, or the graph stage. Started by one
command to every idle agent, the agents go through the barriers together: an agent reports in
the barrier it is in, in the stage of the barrier's kind; the synchronizer hands out the counts
once every agent has reported, and ends the barrier once every agent has arrived; and the kind of
the next barrier follows from the kind of the last, except after closing, where the synchronizer
decides.

The invariant `Inv` ties the agents' standings to a `Ghost` of the run so far: how many barrier
ends each agent has handled, whether it has reported in the barrier it is in, the kinds of the
barriers, how many the synchronizer has ended, and whether it has handed out the counts of the
current one. Every signal in flight has its place: an agent has at most one end of a barrier
waiting, behind no stage command; a report, a count or an arrival is in flight, or taken, at most
once per agent and barrier. `Inv.step` says every step keeps it, for the ghost `Ghost.after`
computes from what the step did.
-/

namespace ShardStore

namespace Phase

/-- The kind of a barrier after a barrier of the given kind. -/
inductive Follows : Phase → Phase → Prop
  | swept : Follows .stageBegin .stageProcessed
  | computed : Follows .stageAlgProcess .stageProcessed
  | closing : Follows .stageProcessed .stageClosing
  | again : Follows .stageClosing .stageBegin
  | graph : Follows .stageClosing .stageAlgProcess

/-- The kind of the barrier after one of the given kind, where it does not wait for a decision. -/
def after? : Phase → Option Phase
  | .stageBegin | .stageAlgProcess => some .stageProcessed
  | .stageProcessed => some .stageClosing
  | _ => none

theorem follows_of_after? {p q : Phase} (h : p.after? = some q) : p.Follows q := by
  cases p <;> simp only [after?, reduceCtorEq, Option.some.injEq] at h <;> subst h <;> constructor

end Phase

namespace Signal

/-- A report sent by `b`. -/
def isReportFrom (b : Address) : Signal → Bool
  | report c _ => decide (c = b)
  | _ => false

end Signal

namespace Lockstep

/-- The barriers of a run so far. -/
structure Course where
  /-- The kinds of the barriers, the current one included once it is known. -/
  kinds : List Phase
  /-- Barriers the synchronizer has ended. -/
  closed : Nat
  /-- The synchronizer has handed out the counts of the current barrier. -/
  dealt : Bool

/-- Where one agent is in the course of barriers. -/
structure Place where
  /-- Barrier ends it has handled. -/
  ends : Nat
  /-- Whether it has reported in the barrier it is in. -/
  waits : Bool

/-- What the run so far has done, beyond what the agents keep. -/
structure Ghost where
  course : Course
  place : Address → Place

/-- The start of a run: no barrier yet, and the first is the sweep of a single-entry round. -/
def Ghost.start : Ghost := ⟨⟨[.stageBegin], 0, false⟩, fun _ => ⟨0, false⟩⟩

/-- The kind of the last barrier an agent at `p` has left, if any. -/
def Course.last (C : Course) (p : Place) : Option Phase :=
  match p.ends with
  | 0 => none
  | n + 1 => C.kinds[n]?

/-- What a step does to the course: the synchronizer hands out the counts, ends the barrier,
and the kind of the next follows, or decides the next. -/
def Course.after (C : Course) : Act → Course
  | .deals => { C with dealt := true }
  | .releases => ⟨C.kinds ++ (C.kinds[C.closed]?.bind Phase.after?).toList, C.closed + 1, false⟩
  | .decides next => { C with kinds := C.kinds ++ (next.bind Signal.stage?).toList }
  | _ => C

/-- What a step does to the place of the agent taking it: the end of a barrier moves it on, and
a report makes it wait. -/
def Place.after (p : Place) (o : Option Signal) (act : Act) : Place :=
  let p := if o = some .endBarrier then ⟨p.ends + 1, false⟩ else p
  match act with
  | .reports => { p with waits := true }
  | _ => p

/-- The ghost after agent `a` took a frame carrying `o` and did `act`. -/
def Ghost.after (g : Ghost) (a : Address) (o : Option Signal) (act : Act) : Ghost :=
  ⟨g.course.after act, Function.update g.place a ((g.place a).after o act)⟩

/-- Where an agent that has not reported in its barrier stands, by the kind of the last barrier
it left: idle before the first, sweeping or closing when it stopped part way, in the graph stage,
and after closing idle or about to sweep again, as it wrote or not. -/
def Resumes : Option Phase → Standing → Prop
  | none, w => w.phase = .preload ∧ w.again = false
  | some .stageBegin, w => w.phase = .stageBegin
  | some .stageProcessed, w => w.phase = .stageClosing
  | some .stageAlgProcess, w => w.phase = .stageAlgProcess
  | some .stageClosing, w =>
    (w.phase = .preload ∧ w.again = false) ∨ (w.phase = .stageBegin ∧ w.again = true)
  | some .preload, _ => False

/-- Where a signal waiting for agent `c`, at `p`, may be: reports and arrivals only at the
synchronizer and from agents, and a stage command only for the current barrier, of its kind, at
an agent that has not reported in it. -/
def Placed (Q : Roster) (C : Course) (c : Address) (p : Place) : Signal → Prop
  | .report b _ | .arrived b => c = Q.sync ∧ b ∈ Q.agents
  | .vertices b => b ∈ Q.agents
  | .process => C.kinds[C.closed]? = some .stageBegin ∧ ¬(p.waits = true ∧ p.ends = C.closed)
  | .algProcess =>
    C.kinds[C.closed]? = some .stageAlgProcess ∧ ¬(p.waits = true ∧ p.ends = C.closed)
  | .dist | .endBarrier => True

/-- The kinds of the barriers so far, and the synchronizer, at `ps`, and its lists of agents. -/
structure Global (Q : Roster) (C : Course) (ps : Place) (sync : Standing) : Prop where
  kinds_head : C.kinds[0]? = some .stageBegin
  kinds_follow : ∀ i p q, C.kinds[i]? = some p → C.kinds[i + 1]? = some q → p.Follows q
  /-- The kind of the current barrier is known, unless the synchronizer has yet to decide it. -/
  kinds_length : C.kinds.length = C.closed + 1 ∨
    (C.kinds.length = C.closed ∧ ∃ n, C.closed = n + 1 ∧ C.kinds[n]? = some .stageClosing)
  /-- The synchronizer decides once it has handled the end of the closing barrier. -/
  decided : ∀ n, C.closed = n + 1 → C.kinds[n]? = some .stageClosing →
    C.kinds.length = C.closed + 1 → ps.ends = C.closed
  reported : ∀ b ∈ sync.reported, b ∈ Q.agents
  reported_sorted : sync.reported.Pairwise (Address.compare · · = .lt)
  arrived : ∀ b ∈ sync.arrived, b ∈ Q.agents
  arrived_sorted : sync.arrived.Pairwise (Address.compare · · = .lt)

/-- Where agent `c`, at `p`, stands. -/
structure Own (Q : Roster) (C : Course) (c : Address) (p : Place) (w : Standing) : Prop where
  /-- The agent is in the current barrier, or reported in the last one and has its end
  waiting. -/
  ends : p.ends = C.closed ∨ (p.ends + 1 = C.closed ∧ p.waits = true)
  ends_count : w.signals.count .endBarrier + p.ends = C.closed
  /-- An agent that reported is in the stage of its barrier's kind. -/
  waits_kind : p.waits = true → C.kinds[p.ends]? = some w.phase
  resumes : p.waits = false → Resumes (C.last p) w
  dealt : C.dealt = true → p.waits = true ∧ p.ends = C.closed
  placed : ∀ x ∈ w.signals, Placed Q C c p x
  commands : w.signals.countP Signal.isCommand ≤ 1
  /-- The end of a barrier is never behind a stage command. -/
  end_first : .endBarrier ∉ w.signals.dropWhile (fun x => !x.isCommand)
  /-- The graph stage is chosen only when no agent asked for another round. -/
  alg_again : C.kinds[C.closed]? = some .stageAlgProcess →
    ¬(p.waits = true ∧ p.ends = C.closed) → w.again = false
  collected : ∀ b ∈ w.collected, b ∈ Q.agents
  collected_sorted : w.collected.Pairwise (Address.compare · · = .lt)
  /-- An agent's own vertex list reaches it only in the graph stage, before it reports. -/
  own_vertices : w.signals.count (.vertices c) + (if c ∈ w.collected then 1 else 0) ≤
    if C.last p = some .stageAlgProcess ∧ p.waits = false then 1 else 0
  ready : w.ready = true → c ∈ w.collected

/-- Agent `b`'s reports and arrivals at the synchronizer. -/
structure AtSync (Q : Roster) (C : Course) (b : Address) (p : Place) (w sync : Standing) :
    Prop where
  /-- A report carries its sender's flag. -/
  flags : ∀ v, .report b v ∈ sync.signals → v = w.again
  /-- A report of the current barrier is in flight or taken at most once, and only until the
  counts are handed out. -/
  reports : sync.signals.countP (Signal.isReportFrom b) + (if b ∈ sync.reported then 1 else 0) ≤
    if p.waits = true ∧ p.ends = C.closed ∧ C.dealt = false then 1 else 0
  /-- Once the counts are handed out, the agent's is on its way, waited for, or answered by an
  arrival on its way or taken, at most once. -/
  arrivals : w.signals.count .dist + (if w.expects = true then 1 else 0) +
      sync.signals.count (.arrived b) + (if b ∈ sync.arrived then 1 else 0) ≤
    if C.dealt = true then 1 else 0
  /-- In a closing barrier, the synchronizer knows of a report asking for another round. -/
  tally_again : C.kinds[C.closed]? = some .stageClosing → w.again = true →
    p.waits = true → p.ends = C.closed → (b ∈ sync.reported ∨ C.dealt = true) →
    sync.tallyAgain = true
  undecided_again : C.kinds.length = C.closed → w.again = true → sync.tallyAgain = true

/-- The lock-step invariant. -/
structure Inv (Q : Roster) (g : Ghost) (W : View) : Prop where
  global : Global Q g.course (g.place Q.sync) (W Q.sync)
  own : ∀ c ∈ Q.agents, Own Q g.course c (g.place c) (W c)
  atSync : ∀ b ∈ Q.agents, AtSync Q g.course b (g.place b) (W b) (W Q.sync)

/-! ### What the invariant says at once -/

namespace Global

variable {Q : Roster} {C : Course} {ps : Place} {sync : Standing}

/-- No barrier is of the idle kind. -/
theorem kind_ne_preload (h : Global Q C ps sync) {i : Nat} {p : Phase}
    (hp : C.kinds[i]? = some p) : p ≠ .preload := by
  cases i with
  | zero =>
    rw [h.kinds_head] at hp
    cases hp
    nofun
  | succ i =>
    obtain ⟨q, hq⟩ : ∃ q, C.kinds[i]? = some q := by
      have hlt : i + 1 < C.kinds.length := (List.getElem?_eq_some_iff.mp hp).1
      exact ⟨_, List.getElem?_eq_getElem (by omega)⟩
    cases h.kinds_follow i q p hq hp <;> nofun

end Global

namespace Own

variable {Q : Roster} {C : Course} {c : Address} {p : Place} {w : Standing}

/-- An agent with the end of a barrier waiting has reported in that barrier, the last one. -/
theorem waits_of_end (h : Own Q C c p w) (hend : Signal.endBarrier ∈ w.signals) :
    p.waits = true ∧ p.ends + 1 = C.closed := by
  have hpos := List.count_pos_iff.mpr hend
  have hcount := h.ends_count
  rcases h.ends with h' | h'
  · omega
  · exact ⟨h'.2, h'.1⟩

/-- An agent that has not reported is in the current barrier. -/
theorem ends_of_not_waits (h : Own Q C c p w) (hw : p.waits = false) : p.ends = C.closed := by
  rcases h.ends with h' | h'
  · exact h'
  · rw [hw] at h'
    cases h'.2

/-- No end of a barrier is waiting for an agent in the current barrier. -/
theorem count_end_eq_zero (h : Own Q C c p w) (he : p.ends = C.closed) :
    w.signals.count .endBarrier = 0 := by
  have := h.ends_count
  omega

/-- An agent with a set-up engine is in the graph stage and has not reported. -/
theorem ready_last (h : Own Q C c p w) (hr : w.ready = true) :
    C.last p = some .stageAlgProcess ∧ p.waits = false := by
  have hown := h.own_vertices
  rw [if_pos (h.ready hr)] at hown
  by_contra hne
  rw [if_neg hne] at hown
  omega

end Own

/-- A sorted list of agents as long as the roster holds every agent. -/
theorem mem_of_length_le {Q : Roster} {l : List Address} (hsub : ∀ b ∈ l, b ∈ Q.agents)
    (hsorted : l.Pairwise (Address.compare · · = .lt)) (hlen : Q.agents.length ≤ l.length)
    {b : Address} (hb : b ∈ Q.agents) : b ∈ l := by
  have hnodup : l.Nodup := hsorted.imp fun {x y} (hxy : Address.compare x y = .lt) (heq : x = y) =>
    Address.compare_self_ne_lt y (heq ▸ hxy)
  exact ((hnodup.subperm hsub).perm_of_length_le hlen).mem_iff.mpr hb

/-! ### The start -/

/-- An agent told to start a run: idle, with the stage command waiting. -/
def Standing.started : Standing :=
  ⟨.preload, false, false, false, [], [], [], false, [.process]⟩

/-- Every agent idle, each with one command to start a single-entry round, starts a run. -/
theorem Inv.start {Q : Roster} (hQ : Q.Sound) {W : View}
    (h : ∀ a ∈ Q.agents, W a = Standing.started) : Inv Q Ghost.start W := by
  have hsync := h _ hQ.sync_mem
  refine ⟨?_, fun c hc => ?_, fun b hb => ?_⟩
  · rw [hsync]
    exact ⟨rfl, fun i p q _ hq => by simp [Ghost.start] at hq, .inl rfl,
      fun n hn => by simp [Ghost.start] at hn, nofun, .nil, nofun, .nil⟩
  · rw [h c hc]
    refine ⟨.inl rfl, rfl, nofun, fun _ => ⟨rfl, rfl⟩, nofun, fun x hx => ?_, by decide, by decide,
      nofun, nofun, .nil, by simp [Standing.started], nofun⟩
    rw [List.mem_singleton.mp hx]
    exact ⟨rfl, fun h => nomatch h.1⟩
  · rw [h b hb, hsync]
    refine ⟨fun v hv => ?_, by simp [Standing.started, Signal.isReportFrom, Ghost.start],
      by simp [Standing.started, Ghost.start], nofun, nofun⟩
    simp [Standing.started] at hv

end Lockstep

end ShardStore
