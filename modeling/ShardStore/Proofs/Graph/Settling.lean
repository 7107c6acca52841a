import ShardStore.Proofs.Graph.Distances
import ShardStore.Proofs.Graph.Walks
import ShardStore.Proofs.Wire.Frames
import Mathlib.Data.Nat.Find
import Mathlib.Order.Bounds.Basic
/-!
Distance stages settle on the least offers of walks.

The distances of a stage relax along the edges of the domain's transaction graph: a vertex's
inbox in round `i + 1` holds one more (capped at the top word) than the distance of each of its
in-neighbours after round `i`, so its new distance is the least of its own and those. By the
relaxation lemmas of `Walks`, the distances after round `i` are the least offers of the walks of
at most `i` steps; they stop moving once `i + 1` reaches the number of the graph's vertices, so
the first round that leaves every program inactive comes no later than that number, and its
distances, which no edge can lower, are the least offers of all walks.

This needs the engine's vertices of the graph to be exactly the ends of its edges, and the
graph's keys not to be drawn at random (setup skips those).
-/

namespace ShardStore

/-- The top word as a number: the distance of a vertex no seed reaches. -/
abbrev unreached : Nat := Nat.pow 2 64 - 1

theorem toNat_le_unreached (x : UInt64) : x.toNat ≤ unreached := by
  have h := UInt64.toNat_lt x
  simp only [unreached, Nat.pow_eq]
  omega

namespace Gas

theorem unsignedDecode_ofU64 (x : UInt64) : unsignedDecode (Bytes.ofU64 x) = some x := by
  have h8 : (Bytes.ofU64 x).length = 8 := Bytes.length_le 8 _
  simpa [unsignedDecode, h8] using Decoder.toU64_ofU64 x []

/-- The distance template scatters the capped successor. -/
theorem distance_scatter_toNat (x : UInt64) :
    (distance.scatter x).toNat = min unreached (x.toNat + 1) := by
  have hlt := UInt64.toNat_lt x
  show (if x = UInt64.ofNat (Nat.pow 2 64 - 1) then x else x + 1).toNat = _
  split_ifs with hx
  · subst hx
    decide
  · have hne : x.toNat ≠ unreached := fun h => hx (UInt64.toNat_inj.mp (by rw [h]; decide))
    have hle := toNat_le_unreached x
    simp only [unreached, Nat.pow_eq] at hne hle ⊢
    rw [UInt64.toNat_add, UInt64.toNat_one, Nat.mod_eq_of_lt (by omega : x.toNat + 1 < 2 ^ 64)]
    omega

section Least

variable {f : UInt64 → Bytes → UInt64}
  (hf : ∀ acc p, (∀ m, unsignedDecode p = some m → f acc p = min m acc) ∧
    (unsignedDecode p = none → f acc p = acc))
include hf

/-- A fold that keeps the least of the words it decodes: no more than where it started or any
word it decoded, and either where it started or one of those words. -/
theorem foldl_least : ∀ (ps : List Bytes) (acc : UInt64),
    (ps.foldl f acc).toNat ≤ acc.toNat ∧
    (∀ p ∈ ps, ∀ m, unsignedDecode p = some m → (ps.foldl f acc).toNat ≤ m.toNat) ∧
    (ps.foldl f acc = acc ∨ ∃ p ∈ ps, unsignedDecode p = some (ps.foldl f acc))
  | [], acc => by simp
  | p :: ps, acc => by
    obtain ⟨h1, h2, h3⟩ := foldl_least ps (f acc p)
    have hstep : (f acc p).toNat ≤ acc.toNat ∧
        (∀ m, unsignedDecode p = some m → (f acc p).toNat ≤ m.toNat) ∧
        (f acc p = acc ∨ unsignedDecode p = some (f acc p)) := by
      cases hp : unsignedDecode p with
      | none => simp [(hf acc p).2 hp]
      | some m =>
        rw [(hf acc p).1 m hp, UInt64.toNat_min]
        refine ⟨Nat.min_le_right _ _, fun m' hm' => ?_, ?_⟩
        · cases hm'
          exact Nat.min_le_left _ _
        · rcases Std.MinEqOr.min_eq_or m acc with h | h <;> rw [h] <;> simp
    rw [List.foldl_cons]
    refine ⟨h1.trans hstep.1, fun q hq m hm => ?_, ?_⟩
    · rcases List.mem_cons.mp hq with rfl | hq
      · exact h1.trans (hstep.2.1 m hm)
      · exact h2 q hq m hm
    · rcases h3 with h | ⟨q, hq, hqd⟩
      · rw [h]
        rcases hstep.2.2 with h' | h'
        · exact Or.inl h'
        · exact Or.inr ⟨p, List.mem_cons_self, h'⟩
      · exact Or.inr ⟨q, List.mem_cons_of_mem _ hq, hqd⟩

end Least

/-- The distance template gathers the least word of an inbox: no more than any word in it, and
the top word or one of them. -/
theorem distance_gatherAll (ps : List Bytes) :
    (∀ p ∈ ps, ∀ m, unsignedDecode p = some m → (distance.gatherAll ps).toNat ≤ m.toNat) ∧
    (distance.gatherAll ps = UInt64.ofNat (Nat.pow 2 64 - 1) ∨
      ∃ p ∈ ps, unsignedDecode p = some (distance.gatherAll ps)) := by
  unfold gatherAll
  refine (foldl_least ?_ ps _).2
  intro acc p
  refine ⟨fun m hm => ?_, fun hm => ?_⟩
  · rw [show distance.decode p = some m from hm]
    rfl
  · rw [show distance.decode p = none from hm]

end Gas

namespace EntryStore

/-- An edge of a domain's transaction graph: a stored key of the graph from `u` to `w`. -/
def TxEdge (s : EntryStore) (domain : UInt32) (u w : VertexId) : Prop :=
  (⟨GroupFilter.txGraph domain, u, w⟩ : Key) ∈ s.keys

/-- The vertices of a domain's transaction graph: both ends of each of its edges. -/
def txVertices (s : EntryStore) (domain : UInt32) : Finset VertexId :=
  ((s.keys.filter fun k => k.info = GroupFilter.txGraph domain).flatMap fun k => [k.b, k.c]).toFinset

theorem TxEdge.mem_txVertices {s : EntryStore} {domain : UInt32} {u w : VertexId}
    (h : s.TxEdge domain u w) : u ∈ s.txVertices domain ∧ w ∈ s.txVertices domain := by
  constructor <;>
  · simp only [txVertices, List.mem_toFinset, List.mem_flatMap, List.mem_filter]
    exact ⟨_, ⟨h, by simp⟩, by simp⟩

end EntryStore

namespace DistanceStage

variable (σ : DistanceStage)

/-- An edge of the stage's graph. -/
abbrev Edge (u w : VertexId) : Prop := σ.store.TxEdge σ.domain u w

/-- The seed of a vertex, as a number. -/
abbrev seed (u : VertexId) : Nat := (σ.store.seedOf σ.domain u).toNat

/-- The engine of a stage spans its graph: the graph's keys are not drawn at random, and the
engine's vertices of the graph are exactly the ends of its edges. -/
structure Spans : Prop where
  drawn : σ.graph &&& Key.randomBit = 0
  vertices_iff : ∀ v, (σ.graph, v) ∈ σ.vertices ↔ v ∈ σ.store.txVertices σ.domain

variable {σ}

/-- A vertex's inbox after a round that leaves the graph's vertices at `X` holds one capped
successor of `X u` for each edge from `u`. -/
theorem mem_payloadsTo (hσ : σ.Spans) {X : VertexId → UInt64} {w : VertexId} {p : Bytes} :
    p ∈ Board.payloadsTo (σ.graph, w) (σ.sends X) ↔
      ∃ u, σ.Edge u w ∧ p = Bytes.ofU64 (Gas.distance.scatter (X u)) := by
  simp only [Board.payloadsTo, sends, List.mem_map, List.mem_filter, List.mem_flatMap]
  constructor
  · rintro ⟨m, ⟨⟨v, hv, hm⟩, hmv⟩, rfl⟩
    by_cases hg : v.1 = σ.graph
    · rw [if_pos hg] at hm
      simp only [edges, Engine.edgesIn, List.map_map, List.mem_map, List.mem_filter,
        Function.comp_def] at hm
      obtain ⟨d, ⟨hd, hdv⟩, rfl⟩ := hm
      simp only [Bool.and_eq_true, Bool.not_eq_true', decide_eq_true_eq] at hdv
      simp only [decide_eq_true_eq, Prod.mk.injEq] at hmv
      refine ⟨v.2, ?_, rfl⟩
      have hkey : d.key = ⟨σ.graph, v.2, w⟩ := by
        obtain ⟨hi, hb⟩ := Prod.mk.inj hdv.2
        rw [← hg, ← hi, ← hb, ← hmv.2]
      exact List.mem_map.mpr ⟨d, hd, hkey⟩
    · rw [if_neg hg] at hm
      cases hm
  · rintro ⟨u, hu, rfl⟩
    obtain ⟨d, hd, hkey⟩ := List.mem_map.mp hu
    have hv : (σ.graph, u) ∈ σ.vertices := (hσ.vertices_iff u).mpr hu.mem_txVertices.1
    refine ⟨⟨σ.graph, w, Bytes.ofU64 (Gas.distance.scatter (X u))⟩, ⟨⟨(σ.graph, u), hv, ?_⟩, by simp⟩,
      rfl⟩
    simp only [if_true, edges, Engine.edgesIn, List.map_map, List.mem_map, List.mem_filter,
      Function.comp_def]
    refine ⟨d, ⟨hd, ?_⟩, by simp only [hkey]⟩
    simp [hkey, Key.isRandom, hσ.drawn]

section Gather

variable (hσ : σ.Spans) {X : VertexId → UInt64} {v : VertexId}
include hσ

/-- What a vertex gathers is no more than the capped successor of each in-neighbour's value. -/
theorem gather_le {w : VertexId} (h : σ.Edge w v) :
    (Gas.distance.gatherAll (Board.payloadsTo (σ.graph, v) (σ.sends X))).toNat ≤
      min unreached ((X w).toNat + 1) := by
  rw [← Gas.distance_scatter_toNat]
  exact (Gas.distance_gatherAll _).1 _ ((mem_payloadsTo hσ).mpr ⟨w, h, rfl⟩) _
    (Gas.unsignedDecode_ofU64 _)

/-- What a vertex gathers is the top word or the capped successor of one in-neighbour's
value. -/
theorem gather_cases :
    (Gas.distance.gatherAll (Board.payloadsTo (σ.graph, v) (σ.sends X))).toNat = unreached ∨
      ∃ w, σ.Edge w v ∧ (Gas.distance.gatherAll (Board.payloadsTo (σ.graph, v) (σ.sends X))).toNat =
        min unreached ((X w).toNat + 1) := by
  rcases (Gas.distance_gatherAll (Board.payloadsTo (σ.graph, v) (σ.sends X))).2 with h | ⟨p, hp, hd⟩
  · left
    rw [h]
    decide
  · obtain ⟨w, hw, rfl⟩ := (mem_payloadsTo hσ).mp hp
    rw [Gas.unsignedDecode_ofU64] at hd
    exact Or.inr ⟨w, hw, by rw [← Option.some.inj hd, Gas.distance_scatter_toNat]⟩

/-- A vertex no edge enters gathers the top word. -/
theorem gather_of_no_edge (h : ∀ u, ¬ σ.Edge u v) :
    (Gas.distance.gatherAll (Board.payloadsTo (σ.graph, v) (σ.sends X))).toNat = unreached := by
  rcases gather_cases hσ (X := X) (v := v) with h' | ⟨w, hw, -⟩
  · exact h'
  · exact absurd hw (h w)

end Gather

theorem dist_succ_toNat (i : Nat) (v : VertexId) :
    (σ.dist (i + 1) v).toNat = min (σ.dist i v).toNat
      (Gas.distance.gatherAll (Board.payloadsTo (σ.graph, v) (σ.sends (σ.dist i)))).toNat := by
  rw [dist_succ, UInt64.toNat_min]

theorem activeAt_succ_eq_false {i : Nat} {v : Vertex} :
    σ.activeAt (i + 1) v = false ↔ (v.1 = σ.graph → σ.dist i v.2 = σ.dist (i + 1) v.2) := by
  by_cases hd : σ.dist i v.2 = σ.dist (i + 1) v.2 <;> simp [activeAt, stateAfter, hd]

theorem activeAt_zero_eq_false {v : Vertex} : σ.activeAt 0 v = false ↔ v.1 ≠ σ.graph := by
  simp [activeAt, stateAfter]

section Settle

variable (hσ : σ.Spans)
include hσ

/-- The distances after round `i` are the least offers of the walks of at most `i` steps. -/
theorem leastWithin_dist : ∀ i v, LeastWithin σ.Edge unreached σ.seed i v (σ.dist i v).toNat
  | 0, v => LeastWithin.seed_self (fun u => toNat_le_unreached _) v
  | i + 1, v => by
    rw [dist_succ_toNat]
    exact LeastWithin.step (leastWithin_dist i) (fun w h => gather_le hσ h) (gather_cases hσ)

/-- A vertex no edge enters keeps its distance. -/
theorem dist_succ_of_no_edge {v : VertexId} (h : ∀ u, ¬ σ.Edge u v) (i : Nat) :
    σ.dist (i + 1) v = σ.dist i v := by
  apply UInt64.toNat_inj.mp
  rw [dist_succ_toNat, gather_of_no_edge hσ h]
  exact Nat.min_eq_left (toNat_le_unreached _)

/-- Distances that stood through a round are ones no edge can lower. -/
theorem closed_of_stood {i : Nat} (hq : ∀ v, σ.dist (i + 1) v = σ.dist i v) (w v : VertexId)
    (h : σ.Edge w v) : (σ.dist i v).toNat ≤ min unreached ((σ.dist i w).toNat + 1) := by
  have hv := dist_succ_toNat (σ := σ) i v
  rw [hq v] at hv
  have := gather_le hσ (X := σ.dist i) h
  omega

/-- Round `i + 1` leaves every program inactive exactly when no distance moved in it. -/
theorem quiet_succ_iff (i : Nat) :
    σ.vertices.any (σ.activeAt (i + 1)) = false ↔ ∀ v, σ.dist (i + 1) v = σ.dist i v := by
  simp only [List.any_eq_false, Bool.not_eq_true, activeAt_succ_eq_false]
  constructor
  · intro h v
    by_cases hv : v ∈ σ.store.txVertices σ.domain
    · exact (h _ ((hσ.vertices_iff v).mpr hv) rfl).symm
    · exact dist_succ_of_no_edge hσ (fun u hu => hv hu.mem_txVertices.2) i
  · intro h x _ _
    exact (h x.2).symm

/-- Round 0 leaves every program inactive exactly when the graph has no vertex. -/
theorem quiet_zero_iff :
    σ.vertices.any (σ.activeAt 0) = false ↔ σ.store.txVertices σ.domain = ∅ := by
  simp only [List.any_eq_false, Bool.not_eq_true, activeAt_zero_eq_false]
  constructor
  · intro h
    refine Finset.eq_empty_of_forall_notMem fun v hv => ?_
    exact h _ ((hσ.vertices_iff v).mpr hv) rfl
  · intro h x hx hg
    have := (hσ.vertices_iff x.2).mp (by rw [← hg]; exact hx)
    simp [h] at this

/-- The round numbered by the count of the graph's vertices leaves every program inactive. -/
theorem quiet_at_card : σ.vertices.any (σ.activeAt (σ.store.txVertices σ.domain).card) = false := by
  cases hn : (σ.store.txVertices σ.domain).card with
  | zero => exact (quiet_zero_iff hσ).mpr (Finset.card_eq_zero.mp hn)
  | succ j =>
    refine (quiet_succ_iff hσ j).mpr fun v => ?_
    by_cases hv : v ∈ σ.store.txVertices σ.domain
    · -- rounds `j` and `j + 1` both hold the least offers of all walks
      have hV : ∀ a b, σ.Edge a b → a ∈ σ.store.txVertices σ.domain ∧ b ∈ σ.store.txVertices σ.domain :=
        fun a b h => h.mem_txVertices
      have h1 := (leastWithin_dist hσ (j + 1) v).isLeast _ hV (by omega) hv
      have h0 := (leastWithin_dist hσ j v).isLeast _ hV (by omega) hv
      exact UInt64.toNat_inj.mp (h1.unique h0)
    · exact dist_succ_of_no_edge hσ (fun u hu => hv hu.mem_txVertices.2) j

/-- The distances of a round that leaves every program inactive are the least offers of all
walks. -/
theorem isLeast_of_quiet {k : Nat} (hk : σ.vertices.any (σ.activeAt k) = false) (v : VertexId) :
    IsLeast (Walk.offers σ.Edge unreached σ.seed v) (σ.dist k v).toNat := by
  cases k with
  | zero =>
    -- a graph without vertices has no edges
    refine LeastWithin.isLeast_of_closed (leastWithin_dist hσ 0) (fun w u h => ?_) v
    have := h.mem_txVertices.1
    simp [(quiet_zero_iff hσ).mp hk] at this
  | succ j =>
    have hq := (quiet_succ_iff hσ j).mp hk
    rw [hq v]
    exact LeastWithin.isLeast_of_closed (leastWithin_dist hσ j) (closed_of_stood hσ hq) v

/-- A distance stage settles: the first round that leaves every program inactive comes no later
than the number of the graph's vertices, and its distances are the least offers of all walks. -/
theorem settles : ∃ k ≤ (σ.store.txVertices σ.domain).card,
    σ.vertices.any (σ.activeAt k) = false ∧ (∀ j < k, σ.vertices.any (σ.activeAt j) = true) ∧
    ∀ v, IsLeast (Walk.offers σ.Edge unreached σ.seed v) (σ.dist k v).toNat := by
  have hex : ∃ k, σ.vertices.any (σ.activeAt k) = false := ⟨_, quiet_at_card hσ⟩
  refine ⟨Nat.find hex, Nat.find_min' hex (quiet_at_card hσ), Nat.find_spec hex,
    fun j hj => ?_, isLeast_of_quiet hσ (Nat.find_spec hex)⟩
  simpa using Nat.find_min hex hj

end Settle

end DistanceStage

end ShardStore
