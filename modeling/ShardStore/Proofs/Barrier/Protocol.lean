import ShardStore.Proofs.Wire.Signals
import ShardStore.Mesh.Node
import Mathlib.Logic.Function.Basic
/-!
The barrier protocol as the agents run it.

Of an agent, the barrier protocol reads only a little: its stage, whether it wants another round,
whether it has been told how many writes to expect, whether its graph engine is set up, whose
vertex lists it has, on the synchronizer the reports and arrivals it has gathered and whether a
report asked for another round, and the signals waiting in its inbox, in order. That is the
agent's `Standing`, and a `View` gives every agent's.

`Moves` says, once and for the whole protocol, what an agent handling one frame can do to the
view, by the signal the frame carries: a stage command moves the agent and makes it report, the
synchronizer tallies reports and arrivals and answers the last of each with a message to every
agent, and the end of a barrier moves the agent on as its stage says. A handler that stops part
way, or a frame written for a signal that does not decode again, leaves one of the views listed
as well. `Step` takes the frame from the head of the inbox first.
-/

namespace ShardStore

namespace Signal

/-- A command that starts a stage. -/
def isCommand : Signal → Bool
  | process | algProcess => true
  | _ => false

/-- The stage a command starts. -/
def stage? : Signal → Option Phase
  | process => some .stageBegin
  | algProcess => some .stageAlgProcess
  | _ => none

/-- A frame written for a message carrying `x` carries `x`, or nothing if it does not decode. -/
def Lossy (x : Signal) (o : Option Signal) : Prop := o = none ∨ o = some x

/-- The synchronizer's decision after the closing barrier: another single-entry round if any
report asked for one, else the graph stage or nothing. -/
def Decides (again : Bool) (next : Option Signal) : Prop :=
  (again = true ∧ next = some .process) ∨
    (again = false ∧ (next = some .algProcess ∨ next = none))

end Signal

/-- Where an agent stands in the barrier protocol. -/
structure Standing where
  phase : Phase
  again : Bool
  /-- Told how many writes to expect, and not arrived yet. -/
  expects : Bool
  /-- The graph engine is set up. -/
  ready : Bool
  /-- The agents whose vertex lists arrived. -/
  collected : List Address
  /-- The agents whose reports the synchronizer has taken. -/
  reported : List Address
  /-- The agents the synchronizer knows have arrived. -/
  arrived : List Address
  /-- Whether a report taken since the last decision asked for another round. -/
  tallyAgain : Bool
  /-- The signals of the frames waiting in the inbox, oldest first. -/
  signals : List Signal

/-- A frame carrying the signal `o`, if any, joins the inbox. -/
def Standing.push (w : Standing) (o : Option Signal) : Standing :=
  { w with signals := w.signals ++ o.toList }

@[simp] theorem Standing.push_none (w : Standing) : w.push none = w := by
  simp [Standing.push]

/-- Where every agent stands. -/
abbrev View := Address → Standing

namespace View

/-- Change where one agent stands. -/
def set (W : View) (a : Address) (f : Standing → Standing) : View := Function.update W a (f (W a))

/-- A frame carrying `o` pushed to `b`. -/
def post (W : View) (b : Address) (o : Option Signal) : View := W.set b (·.push o)

/-- Frames pushed to each of `bs` in order, the one for `b` carrying `o b`. -/
def postAll (W : View) (bs : List Address) (o : Address → Option Signal) : View :=
  bs.foldl (fun W b => W.post b (o b)) W

variable {W : View} {a b : Address}

@[simp] theorem set_self (f : Standing → Standing) : W.set a f a = f (W a) :=
  Function.update_self a _ W

@[simp] theorem set_ne (f : Standing → Standing) (h : b ≠ a) : W.set a f b = W b :=
  Function.update_of_ne h _ W

@[simp] theorem post_self (o : Option Signal) : W.post a o a = (W a).push o := set_self _

@[simp] theorem post_ne (o : Option Signal) (h : b ≠ a) : W.post a o b = W b := set_ne _ h

theorem set_apply (f : Standing → Standing) (c : Address) :
    W.set a f c = if c = a then f (W a) else W c := by
  by_cases h : c = a
  · subst h
    simp
  · simp [h]

/-- What a change of one agent keeps, every agent keeps. -/
theorem set_apply_of {β : Type} {π : Standing → β} {f : Standing → Standing}
    (hf : ∀ w, π (f w) = π w) (c : Address) : π (W.set a f c) = π (W c) := by
  rw [set_apply]
  split
  · subst_vars
    exact hf _
  · rfl

@[simp] theorem set_set (f f' : Standing → Standing) :
    (W.set a f).set a f' = W.set a (fun w => f' (f w)) := by
  funext c
  by_cases h : c = a
  · subst h
    simp
  · simp [h]

/-- Pushed to agents at distinct addresses, each gets its own frame. -/
theorem postAll_apply {o : Address → Option Signal} (c : Address) :
    ∀ {bs : List Address} {W : View}, bs.Nodup →
      W.postAll bs o c = if c ∈ bs then (W c).push (o c) else W c
  | [], _, _ => by simp [postAll]
  | b :: bs, W, h => by
    have hb : b ∉ bs := (List.nodup_cons.mp h).1
    show (W.post b (o b)).postAll bs o c = _
    rw [postAll_apply c (List.nodup_cons.mp h).2]
    by_cases hcb : c = b
    · subst hcb
      simp [hb]
    · by_cases hc : c ∈ bs <;> simp [hcb, hc]

end View

/-- Who runs the protocol: the agents, in the order each of them knows them, the ring they all
route by, and the synchronizer. -/
structure Roster where
  agents : List Address
  ring : Ring
  sync : Address

/-- A roster agents can run: every agent once, and the synchronizer is the agent the ring gives
the synchronisation key. -/
structure Roster.Sound (Q : Roster) : Prop where
  nodup : Q.agents.Nodup
  sync_mem : Q.sync ∈ Q.agents
  owner_sync : Q.ring.owner Key.sync = .ok Q.sync

/-- What a step did that the rest of the protocol will see, besides the signal it took: the
agent reported, or the synchronizer handed out the counts, ended the barrier or decided what
comes next. -/
inductive Act where
  | quiet
  | reports
  | deals
  | releases
  | decides (next : Option Signal)

/-- What an agent `a` handling one frame can do to the view, by the signal the frame carries,
`W` being the view once the frame is taken. -/
inductive Moves (Q : Roster) (a : Address) : Option Signal → Act → View → View → Prop
  /-- A write, a round report or a frame that does not decode changes nothing the protocol
  reads, -/
  | quiet (W : View) : Moves Q a none .quiet W W
  /-- or it is the last write the agent was told to expect, and the agent arrives, -/
  | arrive (W : View) (h : (W a).expects = true) :
      Moves Q a none .quiet W
        ((W.set a fun w => { w with expects := false }).post Q.sync (some (.arrived a)))
  /-- or a round report reaches a set-up engine, and the round writes, -/
  | compute (W : View) (h : (W a).ready = true) :
      Moves Q a none .quiet W (W.set a fun w => { w with again := true })
  /-- or the graph stage is over for the agent, which reports. -/
  | finish (W : View) (h : (W a).ready = true) (o : Option Signal)
      (ho : Signal.Lossy (.report a (W a).again) o) :
      Moves Q a none .reports W ((W.set a fun w =>
        { w with phase := .stageProcessed, ready := false, collected := [] }).post Q.sync o)
  /-- A command starts a single-entry round, -/
  | process (W : View) (o : Option Signal) (ho : Signal.Lossy (.report a false) o) :
      Moves Q a (some .process) .reports W
        ((W.set a fun w => { w with phase := .stageBegin, again := false }).post Q.sync o)
  /-- or the graph stage. -/
  | algProcess (W : View) (o : Option Signal) (ho : Signal.Lossy (.report a false) o) :
      Moves Q a (some .algProcess) .reports W
        ((W.set a fun w => { w with phase := .stageAlgProcess, again := false }).post Q.sync o)
  /-- A report is taken, -/
  | tally (W : View) (b : Address) (g : Bool)
      (h : (Address.insertSorted b (W a).reported).length < Q.agents.length) :
      Moves Q a (some (.report b g)) .quiet W (W.set a fun w =>
        { w with reported := Address.insertSorted b w.reported, tallyAgain := w.tallyAgain || g })
  /-- and once every agent has reported, every agent is told what to expect. -/
  | deal (W : View) (b : Address) (g : Bool)
      (h : Q.agents.length ≤ (Address.insertSorted b (W a).reported).length) :
      Moves Q a (some (.report b g)) .deals W ((W.set a fun w =>
        { w with reported := [], arrived := [], tallyAgain := w.tallyAgain || g }).postAll
          Q.agents fun _ => some .dist)
  /-- Told what to expect, the agent waits for it, -/
  | expect (W : View) :
      Moves Q a (some .dist) .quiet W (W.set a fun w => { w with expects := true })
  /-- or has it already, and arrives. -/
  | expectArrive (W : View) :
      Moves Q a (some .dist) .quiet W
        ((W.set a fun w => { w with expects := false }).post Q.sync (some (.arrived a)))
  /-- An arrival is taken, -/
  | gather (W : View) (b : Address)
      (h : (Address.insertSorted b (W a).arrived).length < Q.agents.length) :
      Moves Q a (some (.arrived b)) .quiet W
        (W.set a fun w => { w with arrived := Address.insertSorted b w.arrived })
  /-- and once every agent has arrived, the barrier ends everywhere. -/
  | release (W : View) (b : Address)
      (h : Q.agents.length ≤ (Address.insertSorted b (W a).arrived).length) :
      Moves Q a (some (.arrived b)) .releases W
        ((W.set a fun w => { w with arrived := [] }).postAll Q.agents fun _ => some .endBarrier)
  /-- The end of a barrier is refused by an idle agent; -/
  | endIdle (W : View) (h : (W a).phase = .preload) : Moves Q a (some .endBarrier) .quiet W W
  /-- it starts the sweep of a single-entry round, which may stop after deciding whether the
  agent wrote, -/
  | sweep (W : View) (h : (W a).phase = .stageBegin) (g : Bool) :
      Moves Q a (some .endBarrier) .quiet W (W.set a fun w => { w with again := g })
  /-- or ends in the report; -/
  | swept (W : View) (h : (W a).phase = .stageBegin) (g : Bool) (o : Option Signal)
      (ho : Signal.Lossy (.report a g) o) :
      Moves Q a (some .endBarrier) .reports W
        ((W.set a fun w => { w with again := g, phase := .stageProcessed }).post Q.sync o)
  /-- it starts the closing stage, which may stop on its way, -/
  | close (W : View) (h : (W a).phase = .stageProcessed) :
      Moves Q a (some .endBarrier) .quiet W (W.set a fun w => { w with phase := .stageClosing })
  /-- or ends in the report; -/
  | closed (W : View) (h : (W a).phase = .stageProcessed) (o : Option Signal)
      (ho : Signal.Lossy (.report a (W a).again) o) :
      Moves Q a (some .endBarrier) .reports W
        ((W.set a fun w => { w with phase := .stageClosing }).post Q.sync o)
  /-- after closing, an agent goes on if it wrote and goes idle if not, -/
  | reopen (W : View) (h : (W a).phase = .stageClosing) (hs : a ≠ Q.sync) :
      Moves Q a (some .endBarrier) .quiet W (W.set a fun w =>
        { w with phase := if w.again then .stageBegin else .preload })
  /-- and the synchronizer also decides what comes next and tells every agent; -/
  | decide (W : View) (h : (W a).phase = .stageClosing) (hs : a = Q.sync)
      (next : Option Signal) (hnext : Signal.Decides (W a).tallyAgain next) :
      Moves Q a (some .endBarrier) (.decides next) W ((W.set a fun w =>
        { w with phase := if w.again then .stageBegin else .preload, tallyAgain := false }).postAll
          Q.agents fun _ => next)
  /-- in the graph stage, the agent sends its vertex list to every agent. -/
  | sendVertices (W : View) (h : (W a).phase = .stageAlgProcess) (o : Address → Option Signal)
      (ho : ∀ b, Signal.Lossy (.vertices a) (o b)) :
      Moves Q a (some .endBarrier) .quiet W (W.postAll Q.agents o)
  /-- A vertex list is taken, -/
  | collect (W : View) (b : Address)
      (h : (Address.insertSorted b (W a).collected).length ≠ Q.agents.length) :
      Moves Q a (some (.vertices b)) .quiet W
        (W.set a fun w => { w with collected := Address.insertSorted b w.collected })
  /-- and once every agent's is in, the engine is set up and runs its first round, either of
  which may stop part way. -/
  | collectAll (W : View) (b : Address)
      (h : (Address.insertSorted b (W a).collected).length = Q.agents.length) (r g : Bool) :
      Moves Q a (some (.vertices b)) .quiet W (W.set a fun w =>
        { w with collected := Address.insertSorted b w.collected, ready := w.ready || r,
                 again := w.again || g })

/-- An agent takes the oldest frame of its inbox, carrying the signal `o` if any, and handles
it. -/
inductive Step (Q : Roster) (a : Address) (o : Option Signal) (act : Act) (W W' : View) : Prop
  | mk (rest : List Signal) (hsig : (W a).signals = o.toList ++ rest)
      (hmove : Moves Q a o act (W.set a fun w => { w with signals := rest }) W')

end ShardStore
