import ShardStore.Graph.Engine
/-!
Which vertices a graph engine holds.

An engine names vertices in two places: the list of vertices it has collected, and the slots it
sets up for them. A slot is only ever made for a collected vertex, and setting up programs,
hanging edges on slots and running rounds change what a slot holds but never whose slot it is.
So whatever is true of every vertex an engine is given stays true of every vertex it holds,
through setup, rounds, deliveries and teardown.
-/

namespace ShardStore

theorem Vertex.mem_insert {x v : Vertex} : ∀ {ys : List Vertex}, v ∈ Vertex.insert x ys →
    v = x ∨ v ∈ ys
  | [], h => by simpa [Vertex.insert] using h
  | y :: ys, h => by
    unfold Vertex.insert at h
    split at h
    · simpa using h
    · exact .inr h
    · rcases List.mem_cons.mp h with h | h
      · exact .inr (h ▸ List.mem_cons_self)
      · rcases mem_insert h with h | h
        · exact .inl h
        · exact .inr (List.mem_cons_of_mem _ h)

namespace Engine

variable {P : Vertex → Prop}

/-- Every vertex an engine holds satisfies `P`: those it collected and those of its slots. -/
structure Holds (P : Vertex → Prop) (e : Engine) : Prop where
  vertices : ∀ v ∈ e.vertices, P v
  slots : ∀ s ∈ e.slots, P s.vertex

/-- A change of one slot that keeps its vertex keeps the slots' vertices. -/
theorem slots_modify {slots : Array Slot} (h : ∀ s ∈ slots, P s.vertex) {f : Slot → Slot}
    (hf : ∀ s, (f s).vertex = s.vertex) (i : Nat) : ∀ s ∈ slots.modify i f, P s.vertex := by
  intro s hs
  obtain ⟨j, hj, rfl⟩ := Array.mem_iff_getElem.mp hs
  rw [Array.getElem_modify]
  split
  · rw [hf]; exact h _ (Array.getElem_mem _)
  · exact h _ (Array.getElem_mem _)

theorem slots_set! {slots : Array Slot} (h : ∀ s ∈ slots, P s.vertex) {s' : Slot}
    (hs' : P s'.vertex) (i : Nat) : ∀ s ∈ slots.set! i s', P s.vertex := by
  intro s hs
  rcases Array.mem_or_eq_of_mem_setIfInBounds hs with hs | rfl
  · exact h s hs
  · exact hs'

theorem Holds.addVertices {e : Engine} (h : e.Holds P) {vs : List Vertex}
    (hvs : ∀ v ∈ vs, P v) : (e.addVertices vs).Holds P := by
  refine ⟨?_, h.slots⟩
  -- the fold only ever inserts a given vertex into what it has
  refine List.foldlRecOn (motive := fun acc => ∀ v ∈ acc, P v) _ _ h.vertices ?_
  intro acc hacc w hw v hv
  rcases Vertex.mem_insert hv with rfl | hv
  · exact hvs _ hw
  · exact hacc v hv

/-- Deciding a slot's programs changes nothing but its programs. -/
theorem startPrograms_frame (filters : List GroupFilter) (look : Lookup) (s : Slot)
    (created : Nat) : ∃ ps, (startPrograms filters look s created).1 = { s with programs := ps } := by
  unfold startPrograms
  -- every step of the fold changes the programs at most
  refine List.foldlRecOn
    (motive := fun acc : Slot × Nat × Option Fault => ∃ ps, acc.1 = { s with programs := ps })
    _ _ ⟨s.programs, rfl⟩ ?_
  intro ⟨s', n, err⟩ hs' f _
  obtain ⟨ps, rfl⟩ := hs'
  cases err with
  | some _ => exact ⟨ps, rfl⟩
  | none => dsimp only; split <;> exact ⟨_, rfl⟩

/-- Deciding a slot's programs keeps its vertex. -/
theorem startPrograms_vertex (filters : List GroupFilter) (look : Lookup) (s : Slot)
    (created : Nat) : (startPrograms filters look s created).1.vertex = s.vertex := by
  obtain ⟨ps, h⟩ := startPrograms_frame filters look s created
  rw [h]

theorem setup_go_slots (filters : List GroupFilter) (look : Lookup) :
    ∀ (fuel i : Nat) (slots : Array Slot) (created : Nat), (∀ s ∈ slots, P s.vertex) →
      ∀ s ∈ (setup.go filters look i slots created fuel).1, P s.vertex := by
  intro fuel
  induction fuel with
  | zero => intro i slots created h; exact h
  | succ fuel ih =>
    intro i slots created h
    unfold setup.go
    split
    · exact h
    · rename_i s hs
      have hset := slots_set! h ((startPrograms_vertex filters look s created).symm ▸
        h s (Array.mem_of_getElem? hs)) i
      dsimp only
      split
      · exact hset
      · exact ih _ _ _ hset

theorem Holds.setup {e : Engine} (h : e.Holds P) (store : EntryStore)
    (filters : List GroupFilter) (look : Lookup) : (e.setup store filters look).1.Holds P := by
  unfold Engine.setup
  dsimp only
  -- both outcomes keep the collected vertices and the slots that programs were started on
  split <;> refine ⟨h.vertices, setup_go_slots filters look _ _ _ _ ?_⟩
  all_goals
    refine List.foldlRecOn (motive := fun slots : Array Slot => ∀ s ∈ slots, P s.vertex) _ _ ?_ ?_
    · -- a slot for each collected vertex
      refine List.foldlRecOn
        (motive := fun acc : Array Slot × List (Vertex × Nat) => ∀ s ∈ acc.1, P s.vertex)
        _ _ h.slots ?_
      intro ⟨slots, index⟩ hacc v hv s hs
      rcases Array.mem_or_eq_of_mem_push hs with hs | rfl
      · exact hacc s hs
      · exact h.vertices v hv
    · -- edges hung on slots
      intro slots hslots d _
      split
      · exact hslots
      · split
        · exact slots_modify hslots (f := fun s => { s with edges := s.edges ++ [⟨d.key.c, d⟩] })
            (fun _ => rfl) _
        · exact hslots

/-- Running a slot's programs keeps its vertex. -/
theorem runSlot_go_vertex (iter : Nat) (inbox : List Bytes) (look : Lookup) :
    ∀ (ps done : List (Option Program)) (s : Slot) (o : VertexOut) (runs : Nat) (act : Bool),
      (runSlot.go iter inbox look ps done s o runs act).1.vertex = s.vertex := by
  intro ps
  induction ps with
  | nil => intro _ _ _ _ _; rfl
  | cons p ps ih =>
    intro done s o runs act
    cases p with
    | none => exact ih _ _ _ _ _
    | some p =>
      unfold runSlot.go
      split
      · rfl
      · exact ih _ _ _ _ _

theorem round_go_slots (e : Engine) (look : Lookup) (iter : Nat) :
    ∀ (fuel i : Nat) (slots : Array Slot) (o : VertexOut) (runs : Nat) (act : Bool),
      (∀ s ∈ slots, P s.vertex) →
      ∀ s ∈ (round.go e look iter i slots o runs act fuel).1, P s.vertex := by
  intro fuel
  induction fuel with
  | zero => intro _ _ _ _ _ h; exact h
  | succ fuel ih =>
    intro i slots o runs act h
    unfold round.go
    split
    · exact h
    · rename_i s hs
      have hv : P (runSlot s iter (e.board.inbox iter s.vertex) look o).1.vertex := by
        rw [runSlot, runSlot_go_vertex]
        exact h s (Array.mem_of_getElem? hs)
      have hset := slots_set! h hv i
      dsimp only
      split
      · exact hset
      · exact ih _ _ _ _ _ hset

theorem Holds.round {e : Engine} (h : e.Holds P) (look : Lookup) : (e.round look).1.Holds P := by
  unfold Engine.round
  dsimp only
  split <;> exact ⟨h.vertices, round_go_slots e look _ _ _ _ _ _ _ h.slots⟩

theorem Holds.deliver {e : Engine} (h : e.Holds P) (iter : Nat) (ms : List VertexMessage) :
    (e.deliver iter ms).Holds P :=
  ⟨h.vertices, h.slots⟩

end Engine

end ShardStore
