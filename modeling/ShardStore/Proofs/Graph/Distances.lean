import ShardStore.Proofs.Graph.Slots
/-!
The rounds of a distance stage.

A distance stage runs the distance program of one chain and domain over the vertices an engine
collected from a store. Its engine starts with one slot per vertex: the program on every vertex
of the domain's transaction graph, a blank on every other. Round 0 starts each program at its
seed and makes its distance entry; round `i + 1` gives each vertex the least of its distance and
what the graph's vertices sent it in round `i`, and saves the distances that stood. So the
engine after round `i` is determined by the distances `dist i`, and each round's mutations and
messages by the distances before and after it.
-/

namespace ShardStore

/-- A distance stage: the store it reads, the chain and domain of its filter, and the vertices
its engine collected. -/
structure DistanceStage where
  store : EntryStore
  chain : String
  domain : UInt32
  vertices : List Vertex

namespace DistanceStage

variable (σ : DistanceStage)

/-- The word of the domain's transaction graph. -/
abbrev graph : GraphId := GroupFilter.txGraph σ.domain

/-- The tag the stage leaves on the edges it has finished with. -/
abbrev done : String := doneTag (σ.chain ++ "_tx_subgraph_search")

/-- The out edges of a vertex, as setup hangs them on its slot. -/
abbrev edges (v : Vertex) : List OutEdge := Engine.edgesIn σ.store.entries v

/-- The program setup starts on a vertex: the distance program on the graph, a blank off it. -/
def started (v : Vertex) : Option Program :=
  if v.1 = σ.graph then some (.distance σ.chain σ.domain none) else none

/-- What the programs send in a round that leaves each vertex `u` of the graph with the
distance `X u`: one more than `X u` along every out edge, slot by slot. -/
def sends (X : VertexId → UInt64) : List VertexMessage :=
  σ.vertices.flatMap fun v => if v.1 = σ.graph then
    (σ.edges v).map fun e => ⟨v.1, e.target, Bytes.ofU64 (Gas.distance.scatter (X v.2))⟩
  else []

/-- The distances after each round: the seeds after round 0; after round `i + 1` each vertex
holds the least of its distance and what round `i` sent it. -/
def dist : Nat → VertexId → UInt64
  | 0 => σ.store.seedOf σ.domain
  | i + 1 => fun v => min (dist i v)
      (Gas.distance.gatherAll (Board.payloadsTo (σ.graph, v) (σ.sends (dist i))))

/-- The state round `i` leaves a program in: active after round 0, and later active when its
distance moved. -/
def stateAfter : Nat → VertexId → VertexState
  | 0, _ => .active
  | i + 1, v => if σ.dist i v = σ.dist (i + 1) v then .inactive else .active

/-- The slot of `v` after round `i`. -/
def slotAfter (i : Nat) (v : Vertex) : Slot :=
  if v.1 = σ.graph then
    ⟨v, σ.edges v, σ.stateAfter i v.2, [some (.distance σ.chain σ.domain (some (σ.dist i v.2)))]⟩
  else ⟨v, σ.edges v, .active, [none]⟩

/-- What the program of `v` makes in round `i`: its distance entry from the seed in round 0;
later, when its distance stood, that distance and the done tag on every out edge. -/
def madeAt : Nat → Vertex → List Mutation
  | 0, v => if v.1 = σ.graph then
      [.addEntry (Program.distanceEntry σ.chain σ.domain v.2 (σ.dist 0 v.2))] else []
  | i + 1, v => if v.1 = σ.graph ∧ σ.dist i v.2 = σ.dist (i + 1) v.2 then
      .updateValue (GroupFilter.distanceKey σ.domain v.2)
        (Bytes.ofString (toString (σ.dist (i + 1) v.2).toNat)) ::
        (σ.edges v).map fun e => .addTag e.entry.key σ.done
    else []

/-- What the first `k` rounds make, round by round and in slot order. -/
def made (k : Nat) : List Mutation := (List.range k).flatMap fun i => σ.vertices.flatMap (σ.madeAt i)

/-- Whether round `i` leaves a program active on `v`. -/
def activeAt (i : Nat) (v : Vertex) : Bool := v.1 = σ.graph ∧ σ.stateAfter i v.2 = .active

/-- The engine a stage starts its rounds from: a fresh slot per collected vertex with the
program setup starts there, nothing posted, nothing pending, no round run. -/
structure SetUp (e : Engine) : Prop where
  slots : e.slots.toList = σ.vertices.map fun v => ⟨v, σ.edges v, .active, [σ.started v]⟩
  board : e.board = Board.empty
  iter : e.iter = 0
  pending : e.pending = #[]

/-- The messages the program of `v` sends when it holds `x`. -/
abbrev sendsFrom (v : Vertex) (x : UInt64) : List VertexMessage :=
  (σ.edges v).map fun e => ⟨v.1, e.target, Bytes.ofU64 (Gas.distance.scatter x)⟩

theorem sends_eq (X : VertexId → UInt64) :
    σ.sends X = σ.vertices.flatMap fun v => if v.1 = σ.graph then σ.sendsFrom v (X v.2) else [] :=
  rfl

/-- Round 0: every program starts at its seed, makes its distance entry and stays active. -/
theorem round_zero (hfresh : ∀ v ∈ σ.vertices, v.1 = σ.graph →
      σ.store.get? (GroupFilter.distanceKey σ.domain v.2) = none)
    {e : Engine} (he : σ.SetUp e) :
    ∃ runs, e.round (Lookup.ofStore σ.store) =
      ({ e with
          slots := (σ.vertices.map (σ.slotAfter 0)).toArray, pending := #[], iter := 1,
          board := e.board.discardBefore 1 },
        (σ.vertices.flatMap (σ.madeAt 0)).toArray,
        .ok ⟨1, σ.vertices.any (σ.activeAt 0), (σ.sends (σ.dist 0)).toArray, runs⟩) := by
  obtain ⟨runs, h⟩ := Engine.round_eq e (Lookup.ofStore σ.store) (fun s => σ.slotAfter 0 s.vertex)
    (fun s => if s.vertex.1 = σ.graph then σ.sendsFrom s.vertex (σ.dist 0 s.vertex.2) else [])
    (fun s => σ.madeAt 0 s.vertex) (fun s => σ.activeAt 0 s.vertex) (by
      rw [he.slots, he.iter]
      intro s hs o
      obtain ⟨v, hv, rfl⟩ := List.mem_map.mp hs
      by_cases hg : v.1 = σ.graph
      · -- the distance program's first run
        have hrun := Program.run_distance_first σ.chain σ.domain
          (v := Engine.view ⟨v, σ.edges v, .active, [σ.started v]⟩ 0
            (e.board.inbox 0 v) (Lookup.ofStore σ.store)) rfl (hfresh v hv hg) rfl
          { o with state := .active }
        refine ⟨.active, 1, ?_⟩
        rw [Engine.runSlot_single (by simp [started, hg]) hrun]
        simp [slotAfter, madeAt, activeAt, stateAfter, dist, hg, Engine.view, sendsFrom]
      · refine ⟨o.state, 0, ?_⟩
        rw [Engine.runSlot_blank (by simp [started, hg])]
        simp [slotAfter, madeAt, activeAt, hg, started])
  refine ⟨runs, ?_⟩
  rw [h, he.slots, he.iter, he.pending]
  simp [List.map_map, List.flatMap_map, sends_eq, Function.comp_def]

@[simp] theorem slotAfter_vertex (i : Nat) (v : Vertex) : (σ.slotAfter i v).vertex = v := by
  unfold slotAfter
  split <;> rfl

theorem dist_succ (i : Nat) (u : VertexId) :
    σ.dist (i + 1) u = min (σ.dist i u)
      (Gas.distance.gatherAll (Board.payloadsTo (σ.graph, u) (σ.sends (σ.dist i)))) := rfl

/-- Round `i + 1`, on the engine round `i` left, each inbox holding what round `i` sent: the
distances move to those of round `i + 1`, and the programs whose distance stood save it. -/
theorem round_succ (i : Nat) {e : Engine}
    (hslots : e.slots.toList = σ.vertices.map (σ.slotAfter i)) (hiter : e.iter = i + 1)
    (hinbox : ∀ v, e.board.inbox e.iter v = Board.payloadsTo v (σ.sends (σ.dist i)))
    (look : Lookup) :
    ∃ runs, e.round look =
      ({ e with
          slots := (σ.vertices.map (σ.slotAfter (i + 1))).toArray, pending := #[],
          iter := i + 2, board := e.board.discardBefore (i + 2) },
        (σ.vertices.flatMap (σ.madeAt (i + 1))).toArray,
        .ok ⟨i + 2, σ.vertices.any (σ.activeAt (i + 1)),
          e.pending ++ (σ.sends (σ.dist (i + 1))).toArray, runs⟩) := by
  obtain ⟨runs, h⟩ := Engine.round_eq e look (fun s => σ.slotAfter (i + 1) s.vertex)
    (fun s => if s.vertex.1 = σ.graph then σ.sendsFrom s.vertex (σ.dist (i + 1) s.vertex.2) else [])
    (fun s => σ.madeAt (i + 1) s.vertex) (fun s => σ.activeAt (i + 1) s.vertex) (by
      rw [hslots]
      intro s hs o
      obtain ⟨⟨g, u⟩, hv, rfl⟩ := List.mem_map.mp hs
      by_cases hg : g = σ.graph
      · subst hg
        -- the later run, whose inbox is what round `i` sent
        have hrun := Program.run_distance_later σ.chain σ.domain
          (v := Engine.view (σ.slotAfter i (σ.graph, u)) e.iter
            (e.board.inbox e.iter (σ.slotAfter i (σ.graph, u)).vertex) look)
          (by simp [Engine.view, hiter]) (σ.dist i u)
          { o with state := (σ.slotAfter i (σ.graph, u)).state }
        have hx : min (σ.dist i u) (Gas.distance.gatherAll (Engine.view (σ.slotAfter i (σ.graph, u))
            e.iter (e.board.inbox e.iter (σ.slotAfter i (σ.graph, u)).vertex) look).inbox) =
            σ.dist (i + 1) u := by
          simp [Engine.view, slotAfter, hinbox, dist_succ]
        rw [hx] at hrun
        refine ⟨σ.stateAfter (i + 1) u, 1, ?_⟩
        rw [Engine.runSlot_single (by simp [slotAfter]) hrun]
        by_cases hd : σ.dist i u = σ.dist (i + 1) u <;>
          simp [slotAfter, madeAt, activeAt, stateAfter, Engine.view, sendsFrom, hd]
      · refine ⟨o.state, 0, ?_⟩
        rw [Engine.runSlot_blank (by simp [slotAfter, hg])]
        simp [slotAfter, madeAt, activeAt, hg])
  refine ⟨runs, ?_⟩
  rw [h, hslots, hiter]
  simp [List.map_map, List.flatMap_map, sends_eq, Function.comp_def]

theorem advance_of_round {look : Lookup} {e e' : Engine} {ms : Array Mutation} {out : RoundOutcome}
    (h : e.round look = (e', ms, .ok out)) : e.advance look = e'.deliver out.iter out.outgoing.toList := by
  simp only [Engine.advance, h]

section Run

variable {σ} (hfresh : ∀ v ∈ σ.vertices, v.1 = σ.graph →
  σ.store.get? (GroupFilter.distanceKey σ.domain v.2) = none) {e : Engine} (he : σ.SetUp e)
include hfresh he

/-- The engine after each round of a stage: round `i` leaves the slots of `dist i`, the counter
at `i + 1`, and every vertex's next inbox holding what the round sent it. -/
theorem afterRounds_eq : ∀ i,
    (e.afterRounds (Lookup.ofStore σ.store) (i + 1)).slots.toList = σ.vertices.map (σ.slotAfter i) ∧
    (e.afterRounds (Lookup.ofStore σ.store) (i + 1)).iter = i + 1 ∧
    ∀ v, (e.afterRounds (Lookup.ofStore σ.store) (i + 1)).inboxOf v =
      Board.payloadsTo v (σ.sends (σ.dist i)) := by
  have hl := Lookup.total_ofStore σ.store
  have hs0 : e.board.Sorted := he.board ▸ Board.sorted_empty
  have ha0 : e.NothingAhead := fun j _ v => by rw [he.board]; rfl
  have hinv := Engine.afterRounds_invariant hl hs0 ha0
  intro i
  induction i with
  | zero =>
    obtain ⟨runs, h0⟩ := σ.round_zero hfresh he
    have hadv := advance_of_round h0
    refine ⟨by rw [show e.afterRounds _ 1 = e.advance _ from rfl, hadv]; simp [Engine.deliver],
      by rw [show e.afterRounds _ 1 = e.advance _ from rfl, hadv]; rfl, fun v => ?_⟩
    rw [show e.afterRounds _ 1 = e.advance _ from rfl, Engine.inboxOf_advance hl hs0 ha0 (by rw [h0])]
  | succ i ih =>
    obtain ⟨hslots, hiter, hinbox⟩ := ih
    obtain ⟨runs, h⟩ := σ.round_succ i hslots hiter (fun v => hinbox v) (Lookup.ofStore σ.store)
    have hadv := advance_of_round h
    have hpend := Engine.afterRounds_pending hl e i
    refine ⟨by rw [Engine.afterRounds, hadv]; simp [Engine.deliver],
      by rw [Engine.afterRounds, hadv]; rfl, fun v => ?_⟩
    rw [Engine.afterRounds, Engine.inboxOf_advance hl (hinv (i + 1)).1 (hinv (i + 1)).2 (by rw [h]),
      hpend]
    simp

/-- Round `i` makes the mutations `madeAt i` in slot order, and the loop stops after it exactly
when it leaves no program active. -/
theorem round_afterRounds (i : Nat) :
    ((e.afterRounds (Lookup.ofStore σ.store) i).round (Lookup.ofStore σ.store)).2.1 =
      (σ.vertices.flatMap (σ.madeAt i)).toArray ∧
    (e.afterRounds (Lookup.ofStore σ.store) i).stopsAfter (Lookup.ofStore σ.store) =
      !σ.vertices.any (σ.activeAt i) := by
  cases i with
  | zero =>
    obtain ⟨runs, h0⟩ := σ.round_zero hfresh he
    exact ⟨by rw [Engine.afterRounds, h0], by rw [Engine.afterRounds, Engine.stopsAfter, h0]⟩
  | succ i =>
    obtain ⟨hslots, hiter, hinbox⟩ := afterRounds_eq hfresh he i
    obtain ⟨runs, h⟩ := σ.round_succ i hslots hiter (fun v => hinbox v) (Lookup.ofStore σ.store)
    exact ⟨by rw [h], by rw [Engine.stopsAfter, h]⟩

/-- The mutations of the first `k` rounds, round by round. -/
theorem madeIn_eq (k : Nat) : (e.madeIn (Lookup.ofStore σ.store) k).toList = σ.made k := by
  induction k with
  | zero => rfl
  | succ k ih =>
    rw [Engine.madeIn, Array.toList_append, ih, (round_afterRounds hfresh he k).1, made, made,
      List.range_succ, List.flatMap_append]
    simp

end Run

end DistanceStage

end ShardStore
