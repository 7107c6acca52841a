import Mathlib
import ShardStore.Proofs.Graph.Layout
import ShardStore.Proofs.Store.Layout
/-!
What setting up a graph engine makes of a store.

Set-up works in three passes over the vertices an engine has collected: a blank slot for every
vertex, in the order collected, with the index pointing the vertex at its slot; the out edges,
each entry not drawn at random hung on the slot of the vertex its key starts at; and the group
filters, each asked in turn, on each slot, whether to start a program there, a blank standing
where one declines. The first two passes do not ask the filters, so whatever they answer the
engine ends with one slot per vertex, holding the out edges the store gives it. The third pass
stops at the first filter that fails. When none fails, every slot holds one program or blank per
filter, in filter order, and set-up answers the number of programs started.

From a torn-down engine given vertices that cover the store's, the vertices come out ascending
and once each, and so do the slots; since a store lists its entries in key order, the out edges
of a vertex come in ascending order of their targets.
-/

namespace ShardStore

/-- Two keys from one vertex compare by their targets. -/
theorem Key.c_lt_of_compare_eq_lt {x y : Key} (h : Key.compare x y = .lt) (h1 : x.info = y.info)
    (h2 : x.b = y.b) : x.c < y.c := by
  simpa [Key.compare, h1, h2, Ordering.then_eq_lt, Std.compare_eq_lt] using h

namespace Engine

/-- The keys of a store's out edges of a vertex: its keys `(v.1, v.2, c)` not drawn at random, in
key order. -/
def edgeKeys (s : EntryStore) (v : Vertex) : List Key :=
  s.keys.filter fun k => !k.isRandom && decide ((k.info, k.b) = v)

/-- What a group filter answers at set-up on a vertex: whether to start a program, asked on the
vertex's view at iteration 0, with its out edges in the store and nothing in its inbox. -/
def startsOn (Es : List Entry) (look : Lookup) (f : GroupFilter) (v : Vertex) : Outcome Bool :=
  f.shouldRun (view (freshSlot Es v) 0 [] look)

/-- The programs set-up gives a vertex when no filter fails there: per filter, in order, the
filter's program where it starts one and a blank where it does not. -/
def programsOn (Es : List Entry) (look : Lookup) (filters : List GroupFilter) (v : Vertex) :
    List (Option Program) :=
  filters.map fun f => if startsOn Es look f v = .ok true then some f.start else none

/-- The number of programs set-up starts on a vertex. -/
def startsAt (Es : List Entry) (look : Lookup) (filters : List GroupFilter) (v : Vertex) : Nat :=
  filters.countP fun f => startsOn Es look f v = .ok true

@[simp] theorem view_programs (s : Slot) (ps : List (Option Program)) (i : Nat)
    (inbox : List Bytes) (look : Lookup) :
    view { s with programs := ps } i inbox look = view s i inbox look := rfl

/-! ### The third pass, one slot -/

section Deciding

variable {look : Lookup}

theorem startPrograms_cons_ok {f : GroupFilter} {s : Slot} {b : Bool}
    (h : f.shouldRun (view s 0 [] look) = .ok b) (fs : List GroupFilter) (c : Nat) :
    startPrograms (f :: fs) look s c =
      startPrograms fs look { s with programs := s.programs ++ [if b then some f.start else none] }
        (if b then c + 1 else c) := by
  cases b <;> simp [startPrograms, h]

theorem startPrograms_cons_error {f : GroupFilter} {s : Slot} {x : Fault}
    (h : f.shouldRun (view s 0 [] look) = .error x) (fs : List GroupFilter) (c : Nat) :
    startPrograms (f :: fs) look s c = (s, c, some x) := by
  unfold startPrograms
  rw [List.foldl_cons]
  simp only [h]
  -- once a filter has failed, the others are not asked
  induction fs with
  | nil => rfl
  | cons g fs ih =>
    rw [List.foldl_cons]
    exact ih

/-- With no filter failing on a slot, deciding its programs appends one program or blank per
filter, in order, and counts the programs started. -/
theorem startPrograms_ok (s : Slot) : ∀ (fs : List GroupFilter) (c : Nat),
    (∀ f ∈ fs, ∃ b, f.shouldRun (view s 0 [] look) = .ok b) →
    startPrograms fs look s c =
      ({ s with programs := s.programs ++ fs.map fun f =>
          if f.shouldRun (view s 0 [] look) = .ok true then some f.start else none },
        c + fs.countP (fun f => f.shouldRun (view s 0 [] look) = .ok true), none)
  | [], c, _ => by simp [startPrograms]
  | f :: fs, c, h => by
    obtain ⟨b, hb⟩ := h f List.mem_cons_self
    rw [startPrograms_cons_ok hb, startPrograms_ok _ fs _ fun f' hf' => by
      simpa using h f' (List.mem_cons_of_mem _ hf')]
    cases b
    · simp [hb]
    · simp [hb]
      omega

/-- A filter failing on a slot makes deciding its programs fail. -/
theorem startPrograms_error (s : Slot) : ∀ (fs : List GroupFilter) (c : Nat),
    (∃ f ∈ fs, ∃ x, f.shouldRun (view s 0 [] look) = .error x) →
    (startPrograms fs look s c).2.2.isSome
  | [], _, ⟨_, hf, _⟩ => absurd hf List.not_mem_nil
  | f :: fs, c, ⟨f', hf', x, hx⟩ => by
    cases hd : f.shouldRun (view s 0 [] look) with
    | error y =>
      rw [startPrograms_cons_error hd]
      rfl
    | ok b =>
      rw [startPrograms_cons_ok hd]
      refine startPrograms_error _ fs _ ⟨f', ?_, x, by simpa using hx⟩
      rcases List.mem_cons.mp hf' with rfl | hf'
      · rw [hd] at hx
        simp at hx
      · exact hf'

end Deciding

/-! ### The third pass, every slot -/

/-- Changing one slot for one that looks the same leaves the slots looking the same. -/
theorem map_set!_of_getElem? {β : Type} (g : Slot → β) {slots : Array Slot} {i : Nat}
    {s : Slot} (s' : Slot) (hs : slots[i]? = some s) (hg : g s' = g s) :
    (slots.set! i s').toList.map g = slots.toList.map g := by
  rw [Array.set!_eq_setIfInBounds, Array.toList_setIfInBounds, List.map_set, hg]
  apply List.ext_getElem?
  intro j
  rw [List.getElem?_set]
  by_cases hij : i = j
  · subst hij
    obtain ⟨hi, hsi⟩ := Array.getElem?_eq_some_iff.mp hs
    simp [hi, hsi]
  · simp [hij]

/-- The third pass only decides programs: every slot keeps its vertex and its out edges. -/
theorem setup_go_layout (filters : List GroupFilter) (look : Lookup) :
    ∀ (fuel i : Nat) (slots : Array Slot) (created : Nat),
      ((setup.go filters look i slots created fuel).1.toList.map fun s => (s.vertex, s.edges)) =
        slots.toList.map fun s => (s.vertex, s.edges) := by
  intro fuel
  induction fuel with
  | zero => intro _ _ _; rfl
  | succ fuel ih =>
    intro i slots created
    unfold setup.go
    split
    · rfl
    · rename_i s hs
      obtain ⟨ps, hps⟩ := startPrograms_frame filters look s created
      have hset := map_set!_of_getElem? (fun s => (s.vertex, s.edges))
        (startPrograms filters look s created).1 hs (by rw [hps])
      dsimp only
      split
      · exact hset
      · rw [ih]
        exact hset

theorem toArray_set!_append (pre rest : List Slot) (s t : Slot) :
    (pre ++ s :: rest).toArray.set! pre.length t = ((pre ++ [t]) ++ rest).toArray := by
  rw [← Array.toList_inj, Array.set!_eq_setIfInBounds, Array.toList_setIfInBounds]
  simp [List.set_append_right]

/-- With no filter failing on any slot from `pre.length` on, the third pass decides every one
of them and counts every program started. -/
theorem setup_go_ok (filters : List GroupFilter) (look : Lookup) (G : Slot → Slot) (k : Slot → Nat) :
    ∀ (rest pre : List Slot) (created fuel : Nat), rest.length ≤ fuel →
      (∀ s ∈ rest, ∀ c, startPrograms filters look s c = (G s, c + k s, none)) →
      setup.go filters look pre.length (pre ++ rest).toArray created fuel =
        ((pre ++ rest.map G).toArray, created + (rest.map k).sum, none)
  | [], pre, created, fuel, _, _ => by
    cases fuel <;> simp [setup.go]
  | s :: rest, pre, created, fuel + 1, hlen, hG => by
    have hget : (pre ++ s :: rest).toArray[pre.length]? = some s := by simp
    have h := setup_go_ok filters look G k rest (pre ++ [G s]) (created + k s) fuel
      (by simp only [List.length_cons] at hlen; omega)
      (fun s' hs' => hG s' (List.mem_cons_of_mem _ hs'))
    unfold setup.go
    rw [hget]
    dsimp only
    rw [hG s List.mem_cons_self created]
    dsimp only
    rw [toArray_set!_append, show pre.length + 1 = (pre ++ [G s]).length by simp, h]
    simp [Nat.add_assoc]

/-- A filter failing on some slot from `pre.length` on makes the third pass fail. -/
theorem setup_go_error (filters : List GroupFilter) (look : Lookup) :
    ∀ (rest pre : List Slot) (created fuel : Nat), rest.length ≤ fuel →
      (∃ s ∈ rest, ∀ c, (startPrograms filters look s c).2.2.isSome) →
      (setup.go filters look pre.length (pre ++ rest).toArray created fuel).2.2.isSome
  | [], _, _, _, _, ⟨_, hs, _⟩ => absurd hs List.not_mem_nil
  | _ :: _, _, _, 0, hlen, _ => absurd hlen (by simp)
  | s :: rest, pre, created, fuel + 1, hlen, ⟨s', hs', hfail⟩ => by
    have hget : (pre ++ s :: rest).toArray[pre.length]? = some s := by simp
    unfold setup.go
    rw [hget]
    dsimp only
    rcases hsp : startPrograms filters look s created with ⟨t, c, _ | x⟩
    · -- this slot is decided; the failing one comes later
      have hs'' : s' ∈ rest := by
        rcases List.mem_cons.mp hs' with rfl | hs''
        · have := hfail created
          rw [hsp] at this
          simp at this
        · exact hs''
      dsimp only
      rw [toArray_set!_append, show pre.length + 1 = (pre ++ [t]).length by simp]
      exact setup_go_error filters look rest (pre ++ [t]) c fuel
        (by simp only [List.length_cons] at hlen; omega) ⟨s', hs'', hfail⟩
    · rfl

/-! ### Set-up from no slots -/

/-- The index the first pass builds names only the vertices it is given. -/
theorem setup_blanks_keys (W : List Vertex) :
    ∀ p ∈ (W.foldl (fun (acc : Array Slot × List (Vertex × Nat)) v =>
        (acc.1.push ⟨v, [], .active, []⟩, setIndex acc.2 v acc.1.size)) (#[], [])).2, p.1 ∈ W := by
  refine List.foldlRecOn
    (motive := fun acc : Array Slot × List (Vertex × Nat) => ∀ p ∈ acc.2, p.1 ∈ W) _ _
    (fun _ h => absurd h List.not_mem_nil) ?_
  intro acc hacc v hv p hp
  simp only [setIndex, List.mem_cons, List.mem_filter] at hp
  rcases hp with rfl | ⟨hp, -⟩
  · exact hv
  · exact hacc p hp

section FromEmpty

variable {e : Engine} (hs : e.slots = #[]) (hi : e.index = []) (hW : e.vertices.Nodup)
  {store : EntryStore} {filters : List GroupFilter} {look : Lookup}
  (hE : ∀ d ∈ store.entries, d.key.isRandom = false → (d.key.info, d.key.b) ∈ e.vertices)
include hs hi hW hE

/-- The first two passes from no slots: set-up is the third pass run on every vertex's fresh
slot, with an index that finds exactly the collected vertices. -/
theorem setup_eq_of_go : ∃ index : List (Vertex × Nat),
    (∀ v, (index.find? (·.1 = v)).map (·.2) =
      if v ∈ e.vertices then some (e.vertices.idxOf v) else none) ∧
    ∀ slots created err, setup.go filters look 0 (e.vertices.map (freshSlot store.entries)).toArray
        0 e.vertices.length = (slots, created, err) →
      e.setup store filters look = match err with
        | some x => ({ e with filters, slots, index }, .error x)
        | none => ({ e with filters, slots, index, ready := true }, .ok created) := by
  obtain ⟨index, hfold, hindex⟩ := setup_blanks hW
  have hkeys := setup_blanks_keys e.vertices
  rw [hfold] at hkeys
  refine ⟨index, fun v => ?_, fun slots created err hgo => ?_⟩
  · split
    · rename_i hv
      exact hindex v hv
    · rename_i hv
      have hnone : index.find? (·.1 = v) = none :=
        List.find?_eq_none.mpr fun p hp hpv => hv (of_decide_eq_true hpv ▸ hkeys p hp)
      rw [hnone]
      rfl
  · unfold setup
    rw [hs, hi, hfold]
    dsimp only
    rw [setup_edges hW store.entries hE _ ?hstep]
    · -- with the outcome of the third pass known, both sides take the same branch
      cases err <;> rw [List.size_toArray, List.length_map, hgo]
    · -- the edge pass finds every key's start through the fresh index
      intro slots d hd
      by_cases hr : d.key.isRandom
      · simp [hr]
      · simp [hr, hindex _ (hE d hd (by simpa using hr))]

/-- Whatever the filters answer, set-up gives every vertex one slot, in the order collected,
holding the out edges the store gives it, and the index finds exactly these vertices' slots. -/
theorem setup_layout :
    ((e.setup store filters look).1.slots.toList.map fun s => (s.vertex, s.edges)) =
        e.vertices.map (fun v => (v, edgesIn store.entries v)) ∧
      ∀ v, (e.setup store filters look).1.slotOf? v =
        if v ∈ e.vertices then some (e.vertices.idxOf v) else none := by
  obtain ⟨index, hindex, hsetup⟩ := @setup_eq_of_go e hs hi hW store filters look hE
  have hlay := setup_go_layout filters look e.vertices.length 0
    (e.vertices.map (freshSlot store.entries)).toArray 0
  rcases hgo : setup.go filters look 0 (e.vertices.map (freshSlot store.entries)).toArray 0
    e.vertices.length with ⟨slots, created, err⟩
  rw [hgo] at hlay
  have hmap : (slots.toList.map fun s => (s.vertex, s.edges)) =
      e.vertices.map (fun v => (v, edgesIn store.entries v)) := by
    rw [hlay]
    simp [freshSlot]
  rw [hsetup slots created err hgo]
  cases err with
  | none => exact ⟨hmap, hindex⟩
  | some x => exact ⟨hmap, hindex⟩

/-- When no filter fails on any vertex, set-up gives every slot its programs, one per filter, is
ready, and answers the number of programs started. -/
theorem setup_ok
    (hok : ∀ v ∈ e.vertices, ∀ f ∈ filters, ∃ b, startsOn store.entries look f v = .ok b) :
    ∃ index, e.setup store filters look =
      ({ e with
          filters := filters,
          slots := (e.vertices.map fun v =>
            { freshSlot store.entries v with programs := programsOn store.entries look filters v }).toArray,
          index := index, ready := true },
        .ok (e.vertices.map (startsAt store.entries look filters)).sum) := by
  obtain ⟨index, -, hsetup⟩ := @setup_eq_of_go e hs hi hW store filters look hE
  let G : Slot → Slot := fun s => { s with
    programs := s.programs ++ filters.map fun f =>
      if f.shouldRun (view s 0 [] look) = .ok true then some f.start else none }
  let k : Slot → Nat := fun s => filters.countP fun f => f.shouldRun (view s 0 [] look) = .ok true
  have hgo := setup_go_ok filters look G k (e.vertices.map (freshSlot store.entries)) [] 0
    (e.vertices.length) (by simp) (fun s hs' c => by
      obtain ⟨v, hv, rfl⟩ := List.mem_map.mp hs'
      exact startPrograms_ok _ filters c (hok v hv))
  simp only [List.length_nil, List.nil_append] at hgo
  -- on a fresh slot the filters see what they see at set-up
  have hG : ∀ v, G (freshSlot store.entries v) =
      { freshSlot store.entries v with programs := programsOn store.entries look filters v } :=
    fun _ => rfl
  have hk : ∀ v, k (freshSlot store.entries v) = startsAt store.entries look filters v :=
    fun _ => rfl
  refine ⟨index, ?_⟩
  rw [hsetup _ _ _ hgo]
  simp only [List.map_map, Function.comp_def, hG, hk, Nat.zero_add]

/-- A filter failing on some vertex makes set-up fail. -/
theorem setup_error
    (hfail : ∃ v ∈ e.vertices, ∃ f ∈ filters, ∃ x, startsOn store.entries look f v = .error x) :
    ∃ x, (e.setup store filters look).2 = .error x := by
  obtain ⟨index, -, hsetup⟩ := @setup_eq_of_go e hs hi hW store filters look hE
  obtain ⟨v, hv, f, hf, x, hx⟩ := hfail
  have hfails := setup_go_error filters look (e.vertices.map (freshSlot store.entries)) [] 0
    (e.vertices.length) (by simp)
    ⟨freshSlot store.entries v, List.mem_map_of_mem hv, fun c => startPrograms_error _ filters c
      ⟨f, hf, x, hx⟩⟩
  simp only [List.length_nil, List.nil_append] at hfails
  rcases hgo : setup.go filters look 0 (e.vertices.map (freshSlot store.entries)).toArray 0
    e.vertices.length with ⟨slots, created, _ | y⟩
  · rw [hgo] at hfails
    simp at hfails
  · exact ⟨y, by rw [hsetup _ _ _ hgo]⟩

/-- Set-up answers a count exactly when no filter fails on any vertex, and the count is the
number of programs started. -/
theorem setup_eq_ok_iff (n : Nat) :
    (e.setup store filters look).2 = .ok n ↔
      (∀ v ∈ e.vertices, ∀ f ∈ filters, ∃ b, startsOn store.entries look f v = .ok b) ∧
        n = (e.vertices.map (startsAt store.entries look filters)).sum := by
  constructor
  · intro h
    have hok : ∀ v ∈ e.vertices, ∀ f ∈ filters, ∃ b, startsOn store.entries look f v = .ok b := by
      intro v hv f hf
      cases hx : startsOn store.entries look f v with
      | ok b => exact ⟨b, rfl⟩
      | error x =>
        obtain ⟨y, hy⟩ := setup_error hs hi hW hE ⟨v, hv, f, hf, x, hx⟩
        rw [h] at hy
        cases hy
    obtain ⟨index, he⟩ := setup_ok hs hi hW hE hok
    rw [he] at h
    exact ⟨hok, (Except.ok.inj h).symm⟩
  · rintro ⟨hok, rfl⟩
    obtain ⟨index, he⟩ := setup_ok hs hi hW hE hok
    rw [he]

/-- The slot the index finds for a vertex holds the vertex and its out edges. -/
theorem setup_slot {v : Vertex} (hv : v ∈ e.vertices) :
    ∃ s, (e.setup store filters look).1.slotOf? v = some (e.vertices.idxOf v) ∧
      (e.setup store filters look).1.slots[e.vertices.idxOf v]? = some s ∧
      s.vertex = v ∧ s.edges = edgesIn store.entries v := by
  obtain ⟨hlay, hidx⟩ := @setup_layout e hs hi hW store filters look hE
  have hget := congrArg (·[e.vertices.idxOf v]?) hlay
  simp only [List.getElem?_map, List.getElem?_idxOf hv, Option.map_some] at hget
  obtain ⟨s, hs', hgs⟩ := Option.map_eq_some_iff.mp hget
  refine ⟨s, by rw [hidx, if_pos hv], by simpa using hs', ?_⟩
  simpa using hgs

end FromEmpty

/-! ### Out edges in key order -/

theorem edgesIn_eq (s : EntryStore) (v : Vertex) :
    (edgesIn s.entries v).map OutEdge.target = (edgeKeys s v).map Key.c := by
  simp [edgesIn, edgeKeys, EntryStore.keys, List.filter_map, Function.comp_def]

theorem length_edgesIn (s : EntryStore) (v : Vertex) :
    (edgesIn s.entries v).length = (edgeKeys s v).length := by
  simpa using congrArg List.length (edgesIn_eq s v)

/-- In a store in key order, the out edges of a vertex have ascending targets. -/
theorem edgeKeys_ascending {s : EntryStore} (hs : EntryStore.KeyAscending s.entries) (v : Vertex) :
    ((edgeKeys s v).map Key.c).Pairwise (· < ·) := by
  have hkeys : s.keys.Pairwise fun x y => Key.compare x y = .lt :=
    List.pairwise_map.mpr hs
  unfold edgeKeys
  rw [List.pairwise_map]
  refine List.Pairwise.imp_of_mem ?_ (List.Pairwise.filter _ hkeys)
  intro x y hx hy hxy
  have hxv := (List.mem_filter.mp hx).2
  have hyv := (List.mem_filter.mp hy).2
  simp only [Bool.and_eq_true, decide_eq_true_eq] at hxv hyv
  have hv := hxv.2.trans hyv.2.symm
  exact Key.c_lt_of_compare_eq_lt hxy (congrArg Prod.fst hv) (congrArg Prod.snd hv)

/-! ### Set-up after tear-down -/

/-- A torn-down engine given vertices that include the store's holds no slot and no index, and
holds these vertices ascending: what set-up from no slots asks for. -/
theorem empty_addVertices (store : EntryStore) {V : List Vertex}
    (hV : ∀ v ∈ localVertices store, v ∈ V) :
    (empty.addVertices V).slots = #[] ∧ (empty.addVertices V).index = [] ∧
      Vertex.Ascending (empty.addVertices V).vertices ∧
      (∀ v, v ∈ (empty.addVertices V).vertices ↔ v ∈ V) ∧
      ∀ d ∈ store.entries, d.key.isRandom = false →
        (d.key.info, d.key.b) ∈ (empty.addVertices V).vertices := by
  obtain ⟨hasc, hWmem⟩ := Vertex.foldl_insert V [] List.Pairwise.nil
  have hmem : ∀ v, v ∈ (empty.addVertices V).vertices ↔ v ∈ V := fun v =>
    (hWmem v).trans (or_iff_right List.not_mem_nil)
  refine ⟨rfl, rfl, hasc, hmem, fun d hd hr => (hmem _).mpr (hV _ ?_)⟩
  -- the start of a key not drawn at random is one of the store's vertices
  exact (localVertices_spec store).2 _ |>.mpr ⟨d.key, List.mem_map_of_mem hd, hr, .inl rfl⟩

/-- Setting up a torn-down engine given vertices `V` that include the store's, on a store in key
order: the slots hold the vertices of `V` ascending, each once, and the index finds each one's
slot and no other vertex. On the slot of a vertex hang its out edges, one per key not drawn at
random that starts at it, with ascending targets. Set-up answers a count exactly when no filter
fails on a vertex of `V`; the count is then the number of vertices and filters where a program
starts, and each slot holds, per filter in order, the filter's program or a blank. -/
theorem setup_after_teardown_lays_out_store (e₀ : Engine) (V : List Vertex) (store : EntryStore)
    (filters : List GroupFilter) (look : Lookup) (hs : EntryStore.KeyAscending store.entries)
    (hV : ∀ v ∈ localVertices store, v ∈ V) :
    let e := (e₀.teardown.addVertices V).setup store filters look
    Vertex.Ascending (e.1.slots.toList.map Slot.vertex) ∧
      (∀ v, v ∈ e.1.slots.toList.map Slot.vertex ↔ v ∈ V) ∧
      (∀ v ∈ V, ∃ i s, e.1.slotOf? v = some i ∧ e.1.slots[i]? = some s ∧ s.vertex = v ∧
        e.1.outDegree? v = some (edgeKeys store v).length ∧
        s.edges.map OutEdge.target = (edgeKeys store v).map Key.c ∧
        ((edgeKeys store v).map Key.c).Pairwise (· < ·) ∧
        ∀ n, e.2 = .ok n → s.programs = programsOn store.entries look filters v) ∧
      (∀ v, v ∉ V → e.1.slotOf? v = none) ∧
      ∀ n, e.2 = .ok n ↔
        (∀ v ∈ V, ∀ f ∈ filters, ∃ b, startsOn store.entries look f v = .ok b) ∧
          n = ∑ v ∈ V.toFinset, startsAt store.entries look filters v := by
  intro e
  -- tear-down leaves nothing, so the engine holds just the vertices of `V`, ascending
  have he : e = (empty.addVertices V).setup store filters look := rfl
  clear_value e
  subst he
  obtain ⟨hs₀, hi₀, hasc, hmem, hE⟩ := empty_addVertices store hV
  generalize empty.addVertices V = E at hs₀ hi₀ hasc hmem hE ⊢
  have hW : E.vertices.Nodup := hasc.nodup
  obtain ⟨hlay, hidx⟩ := @setup_layout E hs₀ hi₀ hW store filters look hE
  have hverts : (E.setup store filters look).1.slots.toList.map Slot.vertex = E.vertices := by
    simpa [List.map_map, Function.comp_def] using congrArg (List.map Prod.fst) hlay
  refine ⟨hverts ▸ hasc, fun v => by rw [hverts, hmem], fun v hv => ?_,
    fun v hv => by rw [hidx, if_neg fun h => hv ((hmem v).mp h)], fun n => ?_⟩
  · obtain ⟨s, hslot, hget, hsv, hse⟩ := @setup_slot E hs₀ hi₀ hW store filters look hE v
      ((hmem v).mpr hv)
    refine ⟨_, s, hslot, hget, hsv, ?_, by rw [hse, edgesIn_eq], edgeKeys_ascending hs v,
      fun n hn => ?_⟩
    · simp [outDegree?, hslot, hget, hse, length_edgesIn]
    · -- with no filter failing, the slots are known outright
      obtain ⟨hok, -⟩ := (@setup_eq_ok_iff E hs₀ hi₀ hW store filters look hE n).mp hn
      obtain ⟨index, hset⟩ := @setup_ok E hs₀ hi₀ hW store filters look hE hok
      rw [hset] at hget
      simp only [List.getElem?_toArray, List.getElem?_map, List.getElem?_idxOf ((hmem v).mpr hv),
        Option.map_some, Option.some.injEq] at hget
      rw [← hget]
  · have hsum : (E.vertices.map (startsAt store.entries look filters)).sum =
        ∑ v ∈ V.toFinset, startsAt store.entries look filters v := by
      rw [← List.sum_toFinset _ hW]
      congr 1
      ext v
      simp [hmem]
    rw [@setup_eq_ok_iff E hs₀ hi₀ hW store filters look hE n, hsum]
    simp only [hmem]

/-- A store with two edges out of vertex `(1, 2)`, one out of `(5, 6)` and one under a random
key, under a filter that starts a program on every vertex of graph 1: vertex `(1, 2)` has out
degree two, and set-up starts three programs. -/
theorem setup_after_teardown_two_edges :
    let store : EntryStore := ⟨[Entry.make ⟨1, 2, 3⟩ [] [], Entry.make ⟨1, 2, 4⟩ [] [],
      Entry.make ⟨5, 6, 7⟩ [] [], Entry.make ⟨0x8000000000000001, 2, 8⟩ [] []], [], 0, none⟩
    let filters := [GroupFilter.maximum "m" 1 9]
    let e := (empty.teardown.addVertices (localVertices store)).setup store filters
      (Lookup.ofStore store)
    EntryStore.KeyAscending store.entries ∧ (∀ v ∈ localVertices store, v ∈ localVertices store) ∧
      e.1.outDegree? (1, 2) = some 2 ∧ e.2 = .ok 3 := by
  intro store filters e
  have hs : EntryStore.KeyAscending store.entries := by
    unfold EntryStore.KeyAscending
    decide
  obtain ⟨-, -, hslot, -, hok⟩ := setup_after_teardown_lays_out_store empty (localVertices store)
    store filters (Lookup.ofStore store) hs (fun _ h => h)
  obtain ⟨i, s, -, -, -, hdeg, -⟩ := hslot (1, 2) (by decide)
  have hrun : ∀ v ∈ localVertices store, ∀ f ∈ filters,
      ∃ b, startsOn store.entries (Lookup.ofStore store) f v = .ok b := by
    -- the filter only compares the graph, so it never fails
    intro v _ f hf
    rw [List.mem_singleton.mp hf]
    exact ⟨_, rfl⟩
  exact ⟨hs, fun _ h => h, by rw [hdeg]; rfl, (hok 3).mpr ⟨hrun, rfl⟩⟩


end Engine

end ShardStore
