import ShardStore.Proofs.Graph.Layout
import ShardStore.Proofs.Graph.Rounds
/-!
A round slot by slot, and what one run of the distance program does.

A round runs the slots in order, each with the inbox its vertex has at the round's iteration.
When the run of every slot is known, as the slot it leaves, the messages and mutations it adds
to those before it and whether it leaves its vertex active, the round maps the slots, sends what
was pending and then every slot's messages, makes the slots' mutations in order, and is active
when some slot is.

The distance program's first run takes the vertex's seed, makes the vertex's distance entry from
it when the store has none, and sends one more than the seed (the top word stays the top word)
along every out edge. A later run takes the least of its distance and the words in its inbox;
when that keeps the distance it saves it, puts the done tag on every out edge and goes
inactive. Either way it sends one more than its new distance.
-/

namespace ShardStore

namespace VertexOut

theorem foldl_send (g : GraphId) (p : Bytes) : ∀ (es : List OutEdge) (o : VertexOut),
    es.foldl (fun o e => o.send g e.target p) o =
      { o with sent := o.sent ++ (es.map fun e => (⟨g, e.target, p⟩ : VertexMessage)).toArray }
  | [], o => by simp
  | e :: es, o => by
    rw [List.foldl_cons, foldl_send g p es]
    simp [send]

theorem foldl_emit_addTag (t : String) : ∀ (es : List OutEdge) (o : VertexOut),
    es.foldl (fun o e => o.emit (.addTag e.entry.key t)) o =
      { o with effects := o.effects ++ (es.map fun e => Mutation.addTag e.entry.key t).toArray }
  | [], o => by simp
  | e :: es, o => by
    rw [List.foldl_cons, foldl_emit_addTag t es]
    simp [emit]

end VertexOut

namespace Engine

/-- A slot holding only a blank runs nothing. -/
theorem runSlot_blank {s : Slot} (h : s.programs = [none]) (iter : Nat) (inbox : List Bytes)
    (look : Lookup) (o : VertexOut) : runSlot s iter inbox look o = (s, o, 0, false, none) := by
  obtain ⟨v, es, st, ps⟩ := s
  subst h
  rfl

section Loop

variable (e : Engine) (look : Lookup) (iter : Nat) (F : Slot → Slot)
  (S : Slot → List VertexMessage) (M : Slot → List Mutation) (A : Slot → Bool)

/-- The round loop from the slot after `pre` on, when the run of every slot left is known. -/
theorem round_go_eq : ∀ (rest pre : List Slot) (o : VertexOut) (runs : Nat) (act : Bool)
    (fuel : Nat), rest.length ≤ fuel →
    (∀ s ∈ rest, ∀ o : VertexOut, ∃ st r, runSlot s iter (e.board.inbox iter s.vertex) look o =
      (F s, ⟨st, o.sent ++ (S s).toArray, o.effects ++ (M s).toArray⟩, r, A s, none)) →
    ∃ st runs', round.go e look iter pre.length (pre ++ rest).toArray o runs act fuel =
      ((pre ++ rest.map F).toArray, ⟨st, o.sent ++ (rest.flatMap S).toArray,
        o.effects ++ (rest.flatMap M).toArray⟩, runs', act || rest.any A, none)
  | [], pre, o, runs, act, fuel, _, _ => by
    refine ⟨o.state, runs, ?_⟩
    cases fuel <;> simp [round.go]
  | s :: rest, pre, o, runs, act, fuel + 1, hlen, hrun => by
    obtain ⟨st, r, hs⟩ := hrun s List.mem_cons_self o
    have hget : (pre ++ s :: rest).toArray[pre.length]? = some s := by simp
    have hset : (pre ++ s :: rest).toArray.set! pre.length (F s) =
        ((pre ++ [F s]) ++ rest).toArray := by
      rw [← Array.toList_inj, Array.set!_eq_setIfInBounds, Array.toList_setIfInBounds]
      simp [List.set_append_right]
    obtain ⟨st', runs', h⟩ := round_go_eq rest (pre ++ [F s])
      ⟨st, o.sent ++ (S s).toArray, o.effects ++ (M s).toArray⟩ (runs + r) (act || A s) fuel
      (by simp only [List.length_cons] at hlen; omega)
      (fun s' hs' => hrun s' (List.mem_cons_of_mem _ hs'))
    refine ⟨st', runs', ?_⟩
    unfold round.go
    rw [hget]
    dsimp only
    rw [hs]
    dsimp only
    rw [hset, show pre.length + 1 = (pre ++ [F s]).length by simp, h]
    simp [Array.append_assoc, Bool.or_assoc]

/-- A round whose every slot's run is known: the slots mapped, the counter moved on, the board
cleared before it, the mutations in slot order, and the messages pending and then sent. -/
theorem round_eq (hrun : ∀ s ∈ e.slots.toList, ∀ o : VertexOut, ∃ st r,
      runSlot s e.iter (e.board.inbox e.iter s.vertex) look o =
        (F s, ⟨st, o.sent ++ (S s).toArray, o.effects ++ (M s).toArray⟩, r, A s, none)) :
    ∃ runs, e.round look =
      ({ e with
          slots := (e.slots.toList.map F).toArray, pending := #[], iter := e.iter + 1,
          board := e.board.discardBefore (e.iter + 1) },
        (e.slots.toList.flatMap M).toArray,
        .ok ⟨e.iter + 1, e.slots.toList.any A, e.pending ++ (e.slots.toList.flatMap S).toArray,
          runs⟩) := by
  obtain ⟨st, runs, h⟩ := round_go_eq e look e.iter F S M A e.slots.toList []
    ⟨.active, e.pending, #[]⟩ 0 false e.slots.size (by simp) hrun
  simp only [List.nil_append, List.length_nil, Array.toArray_toList] at h
  refine ⟨runs, ?_⟩
  unfold round
  dsimp only
  rw [h]
  simp

end Loop

end Engine

/-- The seed of a vertex in a store: the distance its seed entry holds, unreached (the top word)
when it has none or it does not hold a number. -/
def EntryStore.seedOf (s : EntryStore) (domain : UInt32) (v : VertexId) : UInt64 :=
  (parseDistance? ((s.get? (GroupFilter.seedKey domain v)).map (·.value))).getD
    (UInt64.ofNat (Nat.pow 2 64 - 1))

namespace Program

variable {store : EntryStore} (chain : String) (domain : UInt32)

/-- The entry a distance program makes for a vertex whose distance is `x`. -/
abbrev distanceEntry (chain : String) (domain : UInt32) (vtx : VertexId) (x : UInt64) : Entry :=
  Entry.make (GroupFilter.distanceKey domain vtx) [chain, "TX_DISTANCE"] (Bytes.ofString (toString x.toNat))

theorem distanceInit_fresh {v : VertexView} (hlook : v.lookup = Lookup.ofStore store)
    (hnone : store.get? (GroupFilter.distanceKey domain v.vtx) = none) (o : VertexOut) :
    distanceInit chain domain v o = .ok (store.seedOf domain v.vtx,
      o.emit (.addEntry (distanceEntry chain domain v.vtx (store.seedOf domain v.vtx)))) := by
  simp only [distanceInit, hlook, Lookup.ofStore, hnone, bind, Except.bind, Option.map_none]
  rfl

/-- The first run of the distance program, on a vertex without a stored distance. -/
theorem run_distance_first {v : VertexView} (hlook : v.lookup = Lookup.ofStore store)
    (hnone : store.get? (GroupFilter.distanceKey domain v.vtx) = none) (hv : v.iter = 0)
    (o : VertexOut) :
    (distance chain domain none).run v o =
      .ok (distance chain domain (some (store.seedOf domain v.vtx)),
        ⟨.active, o.sent ++ (v.edges.map fun e => (⟨v.graph, e.target,
            Bytes.ofU64 (Gas.distance.scatter (store.seedOf domain v.vtx))⟩ : VertexMessage)).toArray,
          o.effects.push (.addEntry (distanceEntry chain domain v.vtx (store.seedOf domain v.vtx)))⟩) := by
  have hencode : Gas.distance.encode = Bytes.ofU64 := rfl
  simp only [run, Gas.run_eq, distanceInit_fresh chain domain hlook hnone, Gas.settle, hv, hencode, bind,
    Except.bind, pure, Except.pure, gt_iff_lt, Nat.lt_irrefl, if_false, VertexOut.foldl_send]
  rfl

/-- A later run of the distance program, from the distance `x`. -/
theorem run_distance_later {v : VertexView} (hv : 0 < v.iter) (x : UInt64) (o : VertexOut) :
    (distance chain domain (some x)).run v o =
      .ok (distance chain domain (some (min x (Gas.distance.gatherAll v.inbox))),
        ⟨if x = min x (Gas.distance.gatherAll v.inbox) then .inactive else .active,
          o.sent ++ (v.edges.map fun e => (⟨v.graph, e.target, Bytes.ofU64
            (Gas.distance.scatter (min x (Gas.distance.gatherAll v.inbox)))⟩ : VertexMessage)).toArray,
          o.effects ++ (if x = min x (Gas.distance.gatherAll v.inbox) then
            .updateValue (GroupFilter.distanceKey domain v.vtx)
              (Bytes.ofString (toString (min x (Gas.distance.gatherAll v.inbox)).toNat)) ::
              v.edges.map fun e => Mutation.addTag e.entry.key (doneTag (chain ++ "_tx_subgraph_search"))
            else []).toArray⟩) := by
  have happly : Gas.distance.apply x (Gas.distance.gatherAll v.inbox) =
      min x (Gas.distance.gatherAll v.inbox) := rfl
  have hencode : Gas.distance.encode = Bytes.ofU64 := rfl
  by_cases hx : x = min x (Gas.distance.gatherAll v.inbox)
  · simp only [run, Gas.run_eq, Gas.settle, hv, happly, hencode, bind, Except.bind, pure,
      Except.pure, if_true, if_pos hx, distanceSave, VertexOut.foldl_emit_addTag,
      VertexOut.foldl_send]
    simp [VertexOut.emit]
  · simp only [run, Gas.run_eq, Gas.settle, hv, happly, hencode, bind, Except.bind, pure,
      Except.pure, if_true, if_neg hx, VertexOut.foldl_send]
    simp

end Program

namespace Engine

/-- A slot holding one program runs it once with the slot's state, and keeps what it leaves. -/
theorem runSlot_single {s : Slot} {p : Program} (hs : s.programs = [some p]) {iter : Nat}
    {inbox : List Bytes} {look : Lookup} {o : VertexOut} {p' : Program} {o' : VertexOut}
    (hrun : p.run (view s iter inbox look) { o with state := s.state } = .ok (p', o')) :
    runSlot s iter inbox look o =
      ({ s with state := o'.state, programs := [some p'] }, o', 1, o'.state == .active, none) := by
  obtain ⟨v, es, st, ps⟩ := s
  subst hs
  simp only [runSlot, runSlot.go, hrun]
  simp

end Engine

end ShardStore
