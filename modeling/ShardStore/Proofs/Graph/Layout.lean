import Mathlib.Data.List.Basic
import Mathlib.Data.List.Induction
import Mathlib.Data.Prod.Lex
import ShardStore.Proofs.Graph.Arena
/-!
How a graph engine that holds nothing lays out a store.

The vertices of a store come out strictly ascending, so each once, and they are exactly the
`(info, b)` and `(info, c)` of the keys that were not drawn at random. Setting up an engine with
no slots gives every collected vertex one slot, in the order collected, hangs on it, in store
order, the entries whose key starts at the vertex, and lets the group filters add a program or a
blank to each slot.
-/

namespace ShardStore

namespace Vertex

/-- Where a vertex stands in vertex order: graph first, then number, as numbers. -/
def rank (x : Vertex) : Lex (Nat × Int) := toLex (x.1.toNat, x.2.toInt)

theorem compare_eq_lt_iff {x y : Vertex} : Vertex.compare x y = .lt ↔ rank x < rank y := by
  simp [Vertex.compare, Ordering.then_eq_lt, Prod.Lex.toLex_lt_toLex, Std.compare_eq_lt,
    Std.LawfulEqCmp.compare_eq_iff_eq, rank, UInt64.lt_iff_toNat_lt, Int64.lt_iff_toInt_lt,
    UInt64.toNat_inj]

theorem compare_eq_eq_iff {x y : Vertex} : Vertex.compare x y = .eq ↔ x = y := by
  simp [Vertex.compare, Ordering.then_eq_eq, Std.LawfulEqCmp.compare_eq_iff_eq, Prod.ext_iff]

theorem compare_eq_gt_iff {x y : Vertex} : Vertex.compare x y = .gt ↔ rank y < rank x := by
  simp only [Vertex.compare, Ordering.then_eq_gt, Std.compare_eq_gt,
    Std.LawfulEqCmp.compare_eq_iff_eq, rank, Prod.Lex.toLex_lt_toLex, UInt64.lt_iff_toNat_lt,
    Int64.lt_iff_toInt_lt]
  rw [eq_comm (a := x.1), UInt64.toNat_inj]

/-- Vertices in strictly ascending order. -/
def Ascending (vs : List Vertex) : Prop := vs.Pairwise fun x y => rank x < rank y

theorem Ascending.nodup {vs : List Vertex} (h : Ascending vs) : vs.Nodup :=
  h.imp fun hlt heq => by subst heq; exact lt_irrefl _ hlt

theorem mem_insert_iff {x v : Vertex} : ∀ {ys : List Vertex},
    v ∈ Vertex.insert x ys ↔ v = x ∨ v ∈ ys
  | [] => by simp [Vertex.insert]
  | y :: ys => by
    unfold Vertex.insert
    split
    · simp
    · rename_i h
      obtain rfl := compare_eq_eq_iff.mp h
      simp
    · simp only [List.mem_cons, mem_insert_iff]
      tauto

theorem ascending_insert (x : Vertex) : ∀ {ys : List Vertex}, Ascending ys →
    Ascending (Vertex.insert x ys)
  | [], _ => List.pairwise_singleton _ _
  | y :: ys, h => by
    obtain ⟨hy, hys⟩ := List.pairwise_cons.mp h
    unfold Vertex.insert
    split
    · rename_i hlt
      have hxy := compare_eq_lt_iff.mp hlt
      refine List.Pairwise.cons (fun z hz => ?_) h
      rcases List.mem_cons.mp hz with rfl | hz
      · exact hxy
      · exact hxy.trans (hy z hz)
    · exact h
    · rename_i hgt
      refine List.Pairwise.cons (fun z hz => ?_) (ascending_insert x hys)
      rcases mem_insert_iff.mp hz with rfl | hz
      · exact compare_eq_gt_iff.mp hgt
      · exact hy z hz

/-- Inserting vertices one by one into an ascending list keeps it ascending and adds them. -/
theorem foldl_insert (vs : List Vertex) : ∀ acc : List Vertex, Ascending acc →
    Ascending (vs.foldl (fun acc v => Vertex.insert v acc) acc) ∧
      ∀ v, v ∈ vs.foldl (fun acc v => Vertex.insert v acc) acc ↔ v ∈ acc ∨ v ∈ vs := by
  induction vs with
  | nil => intro acc h; simp [h]
  | cons w vs ih =>
    intro acc h
    obtain ⟨ha, hm⟩ := ih _ (ascending_insert w h)
    refine ⟨ha, fun v => ?_⟩
    simp only [List.foldl_cons]
    rw [hm, mem_insert_iff, List.mem_cons]
    tauto

end Vertex

namespace Engine

/-- The vertices of a store are strictly ascending, and they are the `(info, b)` and `(info, c)`
of its keys not drawn at random. -/
theorem localVertices_spec (s : EntryStore) :
    Vertex.Ascending (localVertices s) ∧ ∀ v, v ∈ localVertices s ↔
      ∃ k ∈ s.keys, k.isRandom = false ∧ (v = (k.info, k.b) ∨ v = (k.info, k.c)) := by
  unfold localVertices
  suffices h : ∀ (ks : List Key) (acc : List Vertex), Vertex.Ascending acc →
      Vertex.Ascending (ks.foldl (fun vs k => if k.isRandom then vs
        else Vertex.insert (k.info, k.c) (Vertex.insert (k.info, k.b) vs)) acc) ∧
      ∀ v, v ∈ ks.foldl (fun vs k => if k.isRandom then vs
        else Vertex.insert (k.info, k.c) (Vertex.insert (k.info, k.b) vs)) acc ↔
        v ∈ acc ∨ ∃ k ∈ ks, k.isRandom = false ∧ (v = (k.info, k.b) ∨ v = (k.info, k.c)) by
    obtain ⟨ha, hm⟩ := h s.keys [] List.Pairwise.nil
    exact ⟨ha, fun v => by simpa using hm v⟩
  intro ks
  induction ks with
  | nil => intro acc h; simp [h]
  | cons k ks ih =>
    intro acc h
    by_cases hk : k.isRandom
    · obtain ⟨ha, hm⟩ := ih acc h
      simp only [List.foldl_cons, hk, if_true]
      refine ⟨ha, fun v => ?_⟩
      rw [hm]
      simp [hk]
    · obtain ⟨ha, hm⟩ := ih _ (Vertex.ascending_insert _ (Vertex.ascending_insert _ h))
      simp only [List.foldl_cons, hk, Bool.false_eq_true, if_false]
      refine ⟨ha, fun v => ?_⟩
      rw [hm, Vertex.mem_insert_iff, Vertex.mem_insert_iff]
      simp only [List.mem_cons, exists_eq_or_imp, Bool.not_eq_true] at hk ⊢
      simp only [hk, true_and]
      constructor
      · rintro ((h | h | h) | h)
        · exact .inr (.inl (.inr h))
        · exact .inr (.inl (.inl h))
        · exact .inl h
        · exact .inr (.inr h)
      · rintro (h | (h | h) | h)
        · exact .inl (.inr (.inr h))
        · exact .inl (.inr (.inl h))
        · exact .inl (.inl h)
        · exact .inr h

/-- The out edges setup hangs on the slot of `v`: the entries under a key `(v.1, v.2, c)` not
drawn at random, in order, each pointing at its `c`. -/
def edgesIn (Es : List Entry) (v : Vertex) : List OutEdge :=
  (Es.filter fun d => !d.key.isRandom && decide ((d.key.info, d.key.b) = v)).map
    fun d => ⟨d.key.c, d⟩

/-- The slot setup gives a vertex before any filter has looked at it. -/
def freshSlot (Es : List Entry) (v : Vertex) : Slot := ⟨v, edgesIn Es v, .active, []⟩

theorem modify_map_idxOf {β : Type} (f : Vertex → β) (g : β → β) {x : Vertex} :
    ∀ {W : List Vertex}, W.Nodup → x ∈ W →
      (W.map f).modify (W.idxOf x) g = W.map fun v => if v = x then g (f v) else f v
  | [], _, hx => absurd hx List.not_mem_nil
  | w :: W, hnd, hx => by
    obtain ⟨hw, hW⟩ := List.nodup_cons.mp hnd
    by_cases hwx : w = x
    · subst hwx
      have hrest : W.map f = W.map fun v => if v = w then g (f v) else f v :=
        List.map_congr_left fun v hv => by rw [if_neg (show v ≠ w from fun h => hw (h ▸ hv))]
      simp [List.idxOf_cons_self, hrest]
    · have hxW : x ∈ W := (List.mem_cons.mp hx).resolve_left (Ne.symm hwx)
      rw [List.idxOf_cons_ne _ hwx, Nat.succ_eq_add_one, List.map_cons, List.modify_succ_cons,
        modify_map_idxOf f g hW hxW, List.map_cons, if_neg hwx]

/-- The first pass of setup: a blank slot per vertex, in order, and an index that finds each
vertex's slot. -/
theorem setup_blanks {W : List Vertex} (hW : W.Nodup) :
    ∃ index : List (Vertex × Nat),
      W.foldl (fun (acc : Array Slot × List (Vertex × Nat)) v =>
        (acc.1.push ⟨v, [], .active, []⟩, setIndex acc.2 v acc.1.size)) (#[], []) =
        ((W.map fun v => (⟨v, [], .active, []⟩ : Slot)).toArray, index) ∧
      ∀ v ∈ W, (index.find? (·.1 = v)).map (·.2) = some (W.idxOf v) := by
  induction W using List.reverseRecOn with
  | nil => exact ⟨[], rfl, fun v hv => absurd hv List.not_mem_nil⟩
  | append_singleton W w ih =>
    obtain ⟨index, hfold, hindex⟩ := ih (hW.sublist (List.sublist_append_left _ _))
    have hw : w ∉ W := fun h => by
      have := List.nodup_append.mp hW
      exact this.2.2 w h w (List.mem_singleton_self w) rfl
    refine ⟨setIndex index w W.length, ?_, fun v hv => ?_⟩
    · rw [List.foldl_append, hfold]
      simp
    · by_cases hvw : v = w
      · subst hvw
        simp [setIndex, List.idxOf_append_of_notMem hw]
      · have hvW : v ∈ W := by simpa [hvw] using hv
        have hskip : ((index.filter (·.1 ≠ w)).find? (·.1 = v)) = index.find? (·.1 = v) := by
          rw [List.find?_filter]
          congr 1
          funext p
          by_cases hp : p.1 = v
          · simp [hp, hvw]
          · simp [hp]
        simp only [setIndex, List.find?_cons, Ne.symm hvw, decide_false]
        rw [hskip, hindex v hvW, List.idxOf_append_of_mem hvW]

/-- The second pass of setup: each entry not drawn at random hangs, as an out edge, on the slot
its key starts at. -/
theorem setup_edges {W : List Vertex} (hW : W.Nodup) :
    ∀ (Es : List Entry), (∀ d ∈ Es, d.key.isRandom = false → (d.key.info, d.key.b) ∈ W) →
      ∀ (step : Array Slot → Entry → Array Slot), (∀ slots d, d ∈ Es → step slots d =
        if d.key.isRandom then slots
        else slots.modify (W.idxOf (d.key.info, d.key.b)) fun s =>
          { s with edges := s.edges ++ [⟨d.key.c, d⟩] }) →
      Es.foldl step (W.map fun v => (⟨v, [], .active, []⟩ : Slot)).toArray =
        (W.map (freshSlot Es)).toArray := by
  intro Es
  induction Es using List.reverseRecOn with
  | nil => intro _ _ _; simp [freshSlot, edgesIn]
  | append_singleton Es d ih =>
    intro hE step hstep
    rw [List.foldl_append, ih (fun d' hd' => hE d' (List.mem_append_left _ hd')) step
      (fun slots d' hd' => hstep slots d' (List.mem_append_left _ hd')), List.foldl_cons,
      List.foldl_nil, hstep _ d (List.mem_append_right _ (List.mem_singleton_self d))]
    by_cases hr : d.key.isRandom
    · simp [hr, freshSlot, edgesIn]
    · have hmem := hE d (List.mem_append_right _ (List.mem_singleton_self d)) (by simpa using hr)
      rw [if_neg hr, ← Array.toList_inj, Array.toList_modify, List.toList_toArray,
        modify_map_idxOf _ _ hW hmem, List.toList_toArray]
      refine List.map_congr_left fun v _ => ?_
      by_cases hv : v = (d.key.info, d.key.b)
      · subst hv
        simp [hr, freshSlot, edgesIn]
      · simp [hv, Ne.symm hv, freshSlot, edgesIn]

/-- The third pass of setup, on the slots from `pre.length` on: each slot gets what its filters
decide, when no filter fails there. -/
theorem setup_go_eq (filters : List GroupFilter) (look : Lookup) (G : Slot → Slot) :
    ∀ (rest pre : List Slot) (created fuel : Nat), rest.length ≤ fuel →
      (∀ s ∈ rest, ∀ c, ∃ c', startPrograms filters look s c = (G s, c', none)) →
      ∃ c', setup.go filters look pre.length (pre ++ rest).toArray created fuel =
        ((pre ++ rest.map G).toArray, c', none)
  | [], pre, created, fuel, _, _ => by
    refine ⟨created, ?_⟩
    cases fuel <;> simp [setup.go]
  | s :: rest, pre, created, fuel + 1, hlen, hG => by
    obtain ⟨c, hc⟩ := hG s List.mem_cons_self created
    have hget : (pre ++ s :: rest).toArray[pre.length]? = some s := by simp
    have hset : (pre ++ s :: rest).toArray.set! pre.length (G s) = ((pre ++ [G s]) ++ rest).toArray := by
      rw [← Array.toList_inj, Array.set!_eq_setIfInBounds, Array.toList_setIfInBounds]
      simp [List.set_append_right]
    obtain ⟨c', h⟩ := setup_go_eq filters look G rest (pre ++ [G s]) c fuel
      (by simp only [List.length_cons] at hlen; omega)
      (fun s' hs' => hG s' (List.mem_cons_of_mem _ hs'))
    refine ⟨c', ?_⟩
    unfold setup.go
    rw [hget]
    dsimp only
    rw [hc]
    dsimp only
    rw [hset, show pre.length + 1 = (pre ++ [G s]).length by simp, h]
    simp

/-- Setting up an engine that holds no slot and no index, on vertices without repeats that
include the start of every key not drawn at random: every vertex gets its fresh slot with what
the filters decide there, in the order collected, when no filter fails. -/
theorem setup_fresh {e : Engine} (hs : e.slots = #[]) (hi : e.index = []) (hW : e.vertices.Nodup)
    {store : EntryStore} {filters : List GroupFilter} {look : Lookup}
    (hE : ∀ d ∈ store.entries, d.key.isRandom = false → (d.key.info, d.key.b) ∈ e.vertices)
    (G : Slot → Slot)
    (hG : ∀ v ∈ e.vertices, ∀ c, ∃ c', startPrograms filters look (freshSlot store.entries v) c =
      (G (freshSlot store.entries v), c', none)) :
    ∃ index c, e.setup store filters look =
      ({ e with
          filters := filters, slots := (e.vertices.map fun v => G (freshSlot store.entries v)).toArray,
          index := index, ready := true }, .ok c) := by
  obtain ⟨index, hfold, hindex⟩ := setup_blanks hW
  unfold setup
  rw [hs, hi, hfold]
  dsimp only
  rw [setup_edges hW store.entries hE _ ?hstep]
  · obtain ⟨c, hgo⟩ := setup_go_eq filters look G (e.vertices.map (freshSlot store.entries)) [] 0
      (e.vertices.length) (by simp)
      (fun s hs' c => by
        obtain ⟨v, hv, rfl⟩ := List.mem_map.mp hs'
        exact hG v hv c)
    simp only [List.length_nil, List.nil_append] at hgo
    rw [List.size_toArray, List.length_map, hgo]
    exact ⟨index, c, by simp [List.map_map]⟩
  · intro slots d hd
    by_cases hr : d.key.isRandom
    · simp [hr]
    · simp [hr, hindex _ (hE d hd (by simpa using hr))]

/-- With one group filter whose decision on a slot is known, the slot gets the filter's program
or a blank. -/
theorem startPrograms_single (f : GroupFilter) (look : Lookup) (s : Slot) (c : Nat) {b : Bool}
    (h : f.shouldRun (view s 0 [] look) = .ok b) :
    startPrograms [f] look s c =
      ({ s with programs := s.programs ++ [if b then some f.start else none] },
        if b then c + 1 else c, none) := by
  cases b <;> simp [startPrograms, h]

end Engine

end ShardStore
