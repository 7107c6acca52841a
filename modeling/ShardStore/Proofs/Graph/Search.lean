import ShardStore.Proofs.Graph.Settling
import ShardStore.Proofs.Shard.Alone
import ShardStore.Proofs.Shard.Closing
import ShardStore.Proofs.Store.Accounting
/-!
Subgraph searches.

A subgraph search of a chain runs the distance program over the domain's transaction graph,
whose edges are the store's keys of that graph. On a store that holds no distance of the domain
and no edge marked done, setup starts the program on every vertex of the graph and on no other,
so the graph stage is the distance stage of the store. It settles by the round numbered by the
count of the graph's vertices; closing the stage then leaves each vertex of the graph a distance
entry holding the least offer of the walks that end at it, the last value the program saved for
it, and every edge of the graph tagged done.

The domain's words must not look drawn at random, which holds for every domain below `2 ^ 31`:
setup skips keys that do.
-/

namespace ShardStore

namespace ChainInfo

theorem unpack_pack (d : UInt32) (k f : UInt16) : unpack (pack d k f) = (d, k, f) := by
  simp only [unpack, pack, Prod.mk.injEq]
  refine ⟨?_, ?_, ?_⟩
  · apply UInt32.eq_of_toBitVec_eq
    ext i hi
    have hk : k.toBitVec.getLsbD (32 + i - 16) = false := BitVec.getLsbD_of_ge _ _ (by omega)
    have hf : f.toBitVec.getLsbD (32 + i) = false := BitVec.getLsbD_of_ge _ _ (by omega)
    simp [hk, hf, hi, show 32 + i < 64 by omega, show i < 64 by omega]
  · apply UInt16.eq_of_toBitVec_eq
    ext i hi
    simp [hi, show 16 + i < 64 by omega, show ¬ 32 ≤ 16 + i by omega]
  · apply UInt16.eq_of_toBitVec_eq
    ext i hi
    simp

/-- Words of different kinds differ. -/
theorem pack_ne_of_kind {k k' : UInt16} (h : k ≠ k') (d d' : UInt32) (f f' : UInt16) :
    pack d k f ≠ pack d' k' f' := by
  intro heq
  have := congrArg unpack heq
  rw [unpack_pack, unpack_pack, Prod.mk.injEq, Prod.mk.injEq] at this
  exact h this.2.1

/-- The words of a domain below `2 ^ 31` do not look drawn at random. -/
theorem pack_and_randomBit {d : UInt32} (h : d.toNat < Nat.pow 2 31) (k f : UInt16) :
    pack d k f &&& Key.randomBit = 0 := by
  have hbit : Key.randomBit.toBitVec = BitVec.twoPow 64 63 := by decide
  have h31 : d.toBitVec[31] = false := by
    rw [← BitVec.getLsbD_eq_getElem, BitVec.getLsbD, UInt32.toNat_toBitVec]
    exact Nat.testBit_eq_false_of_lt (by simpa using h)
  apply UInt64.eq_of_toBitVec_eq
  ext i hi
  rw [UInt64.toBitVec_and, hbit, BitVec.getElem_and, BitVec.getElem_twoPow]
  by_cases h63 : i = 63
  · subst h63
    simp [pack, h31]
  · simp [h63]

end ChainInfo

theorem GroupFilter.distanceKey_ne (domain domain' : UInt32) (v u w : VertexId) :
    GroupFilter.distanceKey domain v ≠ ⟨GroupFilter.txGraph domain', u, w⟩ := by
  intro h
  exact ChainInfo.pack_ne_of_kind (by decide) _ _ _ _ (congrArg Key.info h)

theorem GroupFilter.distanceKey_inj {domain : UInt32} {v u : VertexId}
    (h : GroupFilter.distanceKey domain v = GroupFilter.distanceKey domain u) : v = u :=
  congrArg Key.b h

/-- A list mapped to lists that are empty but at one element, which the list holds once, joins
to that element's list. -/
theorem flatMap_eq_single {α β : Type} {g : α → List β} {a : α} :
    ∀ {l : List α}, l.Nodup → a ∈ l → (∀ x ∈ l, x ≠ a → g x = []) → l.flatMap g = g a
  | [], _, ha, _ => absurd ha List.not_mem_nil
  | b :: l, hl, ha, hg => by
    obtain ⟨hb, hl'⟩ := List.nodup_cons.mp hl
    rw [List.flatMap_cons]
    by_cases hba : b = a
    · subst hba
      rw [List.flatMap_eq_nil_iff.mpr fun x hx => hg x (List.mem_cons_of_mem _ hx)
        (fun h => hb (h ▸ hx)), List.append_nil]
    · rw [hg b List.mem_cons_self hba, List.nil_append]
      exact flatMap_eq_single hl' ((List.mem_cons.mp ha).resolve_left (Ne.symm hba))
        fun x hx => hg x (List.mem_cons_of_mem _ hx)

namespace EntryStore

theorem lastWrite_append (ps qs : List (Key × Bytes)) (j : Key) :
    lastWrite (ps ++ qs) j = (lastWrite qs j).or (lastWrite ps j) := by
  simp [lastWrite, List.filter_append, List.map_append, List.getLast?_append]

/-- The distance stage of a subgraph search of a store: the engine's vertices are the store's. -/
def searchStage (s : EntryStore) (chain : String) (domain : UInt32) : DistanceStage :=
  ⟨s, chain, domain, (Engine.empty.addVertices (Engine.localVertices s)).vertices⟩

variable (s : EntryStore) (chain : String) (domain : UInt32)

/-- The engine's vertices: ascending, and both ends of every key not drawn at random. -/
theorem searchStage_vertices : Vertex.Ascending (s.searchStage chain domain).vertices ∧
    ∀ v, v ∈ (s.searchStage chain domain).vertices ↔
      ∃ k ∈ s.keys, k.isRandom = false ∧ (v = (k.info, k.b) ∨ v = (k.info, k.c)) := by
  obtain ⟨hasc, hmem⟩ := Engine.localVertices_spec s
  obtain ⟨hasc', hmem'⟩ := Vertex.foldl_insert (Engine.localVertices s) [] List.Pairwise.nil
  refine ⟨hasc', fun v => ?_⟩
  show v ∈ (Engine.localVertices s).foldl (fun acc v => Vertex.insert v acc) [] ↔ _
  rw [hmem', ← hmem]
  simp

variable {s chain domain}

theorem searchStage_spans (hdom : domain.toNat < Nat.pow 2 31) :
    (s.searchStage chain domain).Spans := by
  have hdrawn := ChainInfo.pack_and_randomBit hdom Kind.txOutEdge 0
  refine ⟨hdrawn, fun v => ?_⟩
  rw [(searchStage_vertices s chain domain).2]
  simp only [txVertices, List.mem_toFinset, List.mem_flatMap, List.mem_filter, List.mem_cons,
    List.not_mem_nil, or_false, decide_eq_true_eq, Prod.mk.injEq]
  constructor
  · rintro ⟨k, hk, -, ⟨hi, hv⟩ | ⟨hi, hv⟩⟩
    · exact ⟨k, ⟨hk, hi.symm⟩, .inl hv⟩
    · exact ⟨k, ⟨hk, hi.symm⟩, .inr hv⟩
  · rintro ⟨k, ⟨hk, hi⟩, hv⟩
    have hr : k.isRandom = false := by
      simp [Key.isRandom, hi, searchStage, GroupFilter.txGraph, hdrawn]
    rcases hv with hv | hv
    · exact ⟨k, hk, hr, .inl ⟨hi.symm, hv⟩⟩
    · exact ⟨k, hk, hr, .inr ⟨hi.symm, hv⟩⟩

section Setup

variable (hfresh : ∀ v, s.get? (GroupFilter.distanceKey domain v) = none)
  (hopen : ∀ e ∈ s.entries, e.key.info = GroupFilter.txGraph domain →
    e.hasTag (doneTag (chain ++ "_tx_subgraph_search")) = false)
include hfresh hopen

/-- On a store with no distance of the domain and no edge of its graph marked done, a search
runs on exactly the vertices of the graph: a vertex without out edges has no distance yet, and
one with out edges has one not yet done. -/
theorem shouldRun_search (v : Vertex) :
    (GroupFilter.subgraph chain domain).shouldRun
        (Engine.view (Engine.freshSlot s.entries v) 0 [] (Lookup.ofStore s)) =
      .ok (decide (v.1 = GroupFilter.txGraph domain)) := by
  by_cases hg : v.1 = GroupFilter.txGraph domain
  · by_cases he : (Engine.edgesIn s.entries v).isEmpty
    · simp [GroupFilter.shouldRun, Engine.view, Engine.freshSlot, hg, he, Lookup.ofStore, hfresh]
    · have hany : (Engine.edgesIn s.entries v).any
          (fun e => !e.entry.hasTag (doneTag (chain ++ "_tx_subgraph_search"))) = true := by
        obtain ⟨x, hx⟩ := List.exists_mem_of_ne_nil _ (by simpa using he)
        refine List.any_eq_true.mpr ⟨x, hx, ?_⟩
        simp only [Engine.edgesIn, List.mem_map, List.mem_filter, Bool.and_eq_true,
          Bool.not_eq_true', decide_eq_true_eq] at hx
        obtain ⟨d, ⟨hd, -, hdv⟩, rfl⟩ := hx
        simp [hopen d hd (by rw [← hg, ← hdv])]
      simp [GroupFilter.shouldRun, Engine.view, Engine.freshSlot, hg, he, hany]
      rfl
  · simp [GroupFilter.shouldRun, Engine.view, Engine.freshSlot, hg]
    rfl

/-- Setting up a search on such a store starts the distance program on every vertex of the
graph and a blank on every other vertex. -/
theorem setup_search :
    ∃ e c, (Engine.empty.addVertices (Engine.localVertices s)).setup s
        [.subgraph chain domain] (Lookup.ofStore s) = (e, .ok c) ∧
      (s.searchStage chain domain).SetUp e := by
  obtain ⟨hasc, hmem⟩ := searchStage_vertices s chain domain
  obtain ⟨index, c, h⟩ := Engine.setup_fresh (e := Engine.empty.addVertices (Engine.localVertices s))
    rfl rfl hasc.nodup
    (fun d hd hr => (hmem _).mpr ⟨d.key, List.mem_map.mpr ⟨d, hd, rfl⟩, hr, .inl rfl⟩)
    (fun sl => { sl with programs := sl.programs ++
      [if decide (sl.vertex.1 = GroupFilter.txGraph domain) then
        some (GroupFilter.subgraph chain domain).start else none] })
    (fun v _ c => ⟨_, Engine.startPrograms_single _ _ _ c (shouldRun_search hfresh hopen v)⟩)
  refine ⟨_, c, h, ⟨?_, rfl, rfl, rfl⟩⟩
  refine List.map_congr_left fun v _ => ?_
  by_cases hv : v.1 = GroupFilter.txGraph domain <;>
    simp [searchStage, DistanceStage.started, DistanceStage.graph, Engine.freshSlot,
      GroupFilter.start, hv]

end Setup

end EntryStore

namespace DistanceStage

variable {σ : DistanceStage}

theorem entry_of_mem_edges {v : Vertex} {e : OutEdge} (h : e ∈ σ.edges v) :
    e.entry ∈ σ.store.entries ∧ e.entry.key.info = v.1 ∧ e.entry.key.b = v.2 := by
  simp only [edges, Engine.edgesIn, List.mem_map, List.mem_filter, Bool.and_eq_true,
    Bool.not_eq_true', decide_eq_true_eq] at h
  obtain ⟨d, ⟨hd, -, hdv⟩, rfl⟩ := h
  exact ⟨hd, congrArg Prod.fst hdv, congrArg Prod.snd hdv⟩

/-- What a round makes for a vertex is about a vertex of the graph: its distance entry, its
distance, or the done tag on one of its out edges. -/
theorem mem_madeAt {i : Nat} {v : Vertex} {m : Mutation} (h : m ∈ σ.madeAt i v) :
    v.1 = σ.graph ∧
      (m = .addEntry (Program.distanceEntry σ.chain σ.domain v.2 (σ.dist 0 v.2)) ∨
        (∃ x, m = .updateValue (GroupFilter.distanceKey σ.domain v.2) x) ∨
        ∃ e ∈ σ.edges v, m = .addTag e.entry.key σ.done) := by
  cases i with
  | zero =>
    by_cases hg : v.1 = σ.graph
    · simp only [madeAt, if_pos hg, List.mem_singleton] at h
      exact ⟨hg, .inl h⟩
    · simp [madeAt, hg] at h
  | succ i =>
    by_cases hg : v.1 = σ.graph ∧ σ.dist i v.2 = σ.dist (i + 1) v.2
    · simp only [madeAt, if_pos hg, List.mem_cons, List.mem_map] at h
      rcases h with rfl | ⟨e, he, rfl⟩
      · exact ⟨hg.1, .inr (.inl ⟨_, rfl⟩)⟩
      · exact ⟨hg.1, .inr (.inr ⟨e, he, rfl⟩)⟩
    · simp [madeAt, hg] at h

theorem holdable_of_mem_madeAt {i : Nat} {v : Vertex} {m : Mutation} (h : m ∈ σ.madeAt i v) :
    m.Holdable := by
  obtain ⟨-, rfl | ⟨x, rfl⟩ | ⟨e, -, rfl⟩⟩ := mem_madeAt h
  · have hc : (0 : Int64) ≠ -1 := by decide
    exact fun hk => hc (congrArg Key.c hk)
  · trivial
  · trivial

theorem mem_made {k : Nat} {m : Mutation} :
    m ∈ σ.made k ↔ ∃ i < k, ∃ v ∈ σ.vertices, m ∈ σ.madeAt i v := by
  simp [made, List.mem_range]

theorem tagRemovals_made (k : Nat) : (σ.made k).filterMap Mutation.tagRemoval? = [] := by
  refine List.filterMap_eq_nil_iff.mpr fun m hm => ?_
  obtain ⟨i, -, v, -, hm⟩ := mem_made.mp hm
  obtain ⟨-, rfl | ⟨x, rfl⟩ | ⟨e, -, rfl⟩⟩ := mem_madeAt hm <;> rfl

/-- The entries the stage inserts are distance entries. -/
theorem key_of_inserted_made {k : Nat} {e : Entry}
    (he : e ∈ (σ.made k).filterMap Mutation.inserted?) :
    ∃ v, e.key = GroupFilter.distanceKey σ.domain v := by
  obtain ⟨m, hm, hme⟩ := List.mem_filterMap.mp he
  obtain ⟨i, -, v, -, hm⟩ := mem_made.mp hm
  obtain ⟨-, rfl | ⟨x, rfl⟩ | ⟨e', -, rfl⟩⟩ := mem_madeAt hm
  · cases hme
    exact ⟨v.2, rfl⟩
  · cases hme
  · cases hme

/-- The tags the stage adds are on edges of the graph. -/
theorem key_of_tagAddition_made {k : Nat} {p : Key × String}
    (hp : p ∈ (σ.made k).filterMap Mutation.tagAddition?) : p.1.info = σ.graph := by
  obtain ⟨m, hm, hmp⟩ := List.mem_filterMap.mp hp
  obtain ⟨i, -, v, -, hm⟩ := mem_made.mp hm
  obtain ⟨hg, rfl | ⟨x, rfl⟩ | ⟨e, he, rfl⟩⟩ := mem_madeAt hm
  · cases hmp
  · cases hmp
  · cases hmp
    exact (entry_of_mem_edges he).2.1.trans hg

/-- Round `j + 1`, when a vertex of the graph stood in it, tags each out edge of it done. -/
theorem tagAddition_made {j : Nat} {d : Entry} (hd : d ∈ σ.store.entries)
    (hr : d.key.isRandom = false) (hg : d.key.info = σ.graph)
    (hu : (σ.graph, d.key.b) ∈ σ.vertices) (hq : σ.dist j d.key.b = σ.dist (j + 1) d.key.b) :
    (d.key, σ.done) ∈ (σ.made (j + 2)).filterMap Mutation.tagAddition? := by
  refine List.mem_filterMap.mpr ⟨.addTag d.key σ.done,
    mem_made.mpr ⟨j + 1, by omega, (σ.graph, d.key.b), hu, ?_⟩, rfl⟩
  have hedge : (⟨d.key.c, d⟩ : OutEdge) ∈ σ.edges (σ.graph, d.key.b) := by
    simp [edges, Engine.edgesIn, hd, hr, hg]
  simp only [madeAt, hq, and_true, if_true, List.mem_cons, List.mem_map]
  exact .inr ⟨_, hedge, rfl⟩

section Keys

variable (hW : σ.vertices.Nodup) {v : VertexId} (hv : (σ.graph, v) ∈ σ.vertices)
include hW hv

/-- The stage inserts one entry under the distance key of a vertex of the graph: its distance
entry, in round 0. -/
theorem inserted_made {k : Nat} (hk : 0 < k) :
    ((σ.made k).filterMap Mutation.inserted?).filter
        (·.key = GroupFilter.distanceKey σ.domain v) =
      [Program.distanceEntry σ.chain σ.domain v (σ.dist 0 v)] := by
  simp only [made, List.filterMap_flatMap, List.filter_flatMap]
  rw [flatMap_eq_single List.nodup_range (List.mem_range.mpr hk) fun i _ hi => ?_]
  · rw [flatMap_eq_single hW hv fun u _ hu => ?_]
    · simp [madeAt, Mutation.inserted?, Program.distanceEntry, Entry.make]
    · -- another vertex's distance entry is under another key
      by_cases hg : u.1 = σ.graph
      · have hne : u.2 ≠ v := fun h => hu (Prod.ext hg h)
        simp [madeAt, hg, Mutation.inserted?, Program.distanceEntry, Entry.make,
          GroupFilter.distanceKey, hne]
      · simp [madeAt, hg]
  · -- later rounds insert nothing
    obtain ⟨j, rfl⟩ := Nat.exists_eq_succ_of_ne_zero hi
    refine List.flatMap_eq_nil_iff.mpr fun u _ => ?_
    by_cases hg : u.1 = σ.graph ∧ σ.dist j u.2 = σ.dist (j + 1) u.2
    · simp [madeAt, hg, Mutation.inserted?]
    · simp [madeAt, hg]

/-- When a vertex of the graph stands in round `j + 1`, the last value the first `j + 2`
rounds write to its distance key is its distance after that round. -/
theorem lastWrite_made {j : Nat} (hq : σ.dist j v = σ.dist (j + 1) v) :
    EntryStore.lastWrite ((σ.made (j + 2)).filterMap Mutation.valueUpdate?)
        (GroupFilter.distanceKey σ.domain v) =
      some (Bytes.ofString (toString (σ.dist (j + 1) v).toNat)) := by
  have hlast : EntryStore.lastWrite ((σ.vertices.flatMap (σ.madeAt (j + 1))).filterMap
      Mutation.valueUpdate?) (GroupFilter.distanceKey σ.domain v) =
        some (Bytes.ofString (toString (σ.dist (j + 1) v).toNat)) := by
    simp only [EntryStore.lastWrite, List.filterMap_flatMap, List.filter_flatMap,
      List.map_flatMap]
    rw [flatMap_eq_single hW hv fun u _ hu => ?_]
    · simp [madeAt, hq, Mutation.valueUpdate?, Function.comp_def]
    · -- another vertex writes under another key
      by_cases hg : u.1 = σ.graph ∧ σ.dist j u.2 = σ.dist (j + 1) u.2
      · have hne : u.2 ≠ v := fun h => hu (Prod.ext hg.1 h)
        simp [madeAt, hg, Mutation.valueUpdate?, GroupFilter.distanceKey, hne]
      · simp [madeAt, hg]
  rw [made, List.range_succ, List.flatMap_append, List.filterMap_append,
    EntryStore.lastWrite_append, List.flatMap_singleton, hlast]
  rfl

end Keys

end DistanceStage

namespace LocalDb

/-- A shard with its engine, ready for a subgraph search and nothing else: its store has no
limit and was built by writes, nothing is held, no subscription waits, the search is the one
filter installed, the engine is idle and the graph stage is on. The domain is below `2 ^ 31`. -/
structure SearchReady (d : LocalDb) (chain : String) (domain : UInt32) : Prop where
  reachable : EntryStore.Reachable none d.shard.store
  nothingHeld : d.shard.staged = Staged.empty
  noWaiters : d.shard.waiters = Waiters.empty
  installed : d.shard.filters.installed = [.group (.subgraph chain domain)]
  idle : d.engine = Engine.empty
  enabled : d.skipGroups = false
  domain_lt : domain.toNat < Nat.pow 2 31

/-- A subgraph search on a store that holds no distance of the domain and no edge of its graph
marked done, given fuel beyond the number `n` of the graph's vertices, ends after at most
`n + 1` graph rounds. It leaves every vertex of the graph a distance entry tagged with the chain
and `TX_DISTANCE`, holding in decimal the least of what the walks ending at the vertex offer
(the seed of the walk's start plus its length, capped at the top word), and every edge of the
graph tagged done. -/
theorem subgraph_search_distances {d : LocalDb} {chain : String} {domain : UInt32}
    (hd : d.SearchReady chain domain)
    (hfresh : ∀ v, d.shard.store.get? (GroupFilter.distanceKey domain v) = none)
    (hopen : ∀ e ∈ d.shard.store.entries, e.key.info = GroupFilter.txGraph domain →
      e.hasTag (doneTag (chain ++ "_tx_subgraph_search")) = false)
    {fuel : Nat} (hfuel : (d.shard.store.txVertices domain).card < fuel) :
    ∃ r d', d.process fuel = .ok r d' ∧
      r.iterations ≤ (d.shard.store.txVertices domain).card + 1 ∧
      (∀ v ∈ d.shard.store.txVertices domain, ∃ D : Nat,
        IsLeast (Walk.offers (d.shard.store.TxEdge domain) unreached
          (fun u => (d.shard.store.seedOf domain u).toNat) v) D ∧
        d'.shard.store.get? (GroupFilter.distanceKey domain v) =
          some (Entry.make (GroupFilter.distanceKey domain v) [chain, "TX_DISTANCE"]
            (Bytes.ofString (toString D)))) ∧
      ∀ u w, d.shard.store.TxEdge domain u w → ∃ e,
        d'.shard.store.get? ⟨GroupFilter.txGraph domain, u, w⟩ = some e ∧
          e.hasTag (doneTag (chain ++ "_tx_subgraph_search")) = true := by
  set σ := d.shard.store.searchStage chain domain with hσdef
  have hl : d.shard.store.limit = none := hd.reachable.consistent.2
  have hwf : d.shard.waiters.WellFormed := hd.noWaiters ▸ Waiters.wellFormed_empty
  have hσ : σ.Spans := EntryStore.searchStage_spans hd.domain_lt
  have hW : σ.vertices.Nodup := (EntryStore.searchStage_vertices _ chain domain).1.nodup
  have hgroups : d.shard.filters.groups = [.subgraph chain domain] := by
    simp [FilterSet.groups, hd.installed]
  have hsingles : d.shard.filters.singles = [] := by simp [FilterSet.singles, hd.installed]
  -- setup, and the rounds up to the first quiet one
  obtain ⟨e, c, hsetup, hup⟩ := EntryStore.setup_search hfresh hopen
  have hfresh' : ∀ v ∈ σ.vertices, v.1 = σ.graph →
      σ.store.get? (GroupFilter.distanceKey σ.domain v.2) = none := fun v _ _ => hfresh v.2
  obtain ⟨k, hk, hquiet, hbusy, hleast⟩ := DistanceStage.settles hσ
  have hk' : k ≤ (d.shard.store.txVertices domain).card := hk
  have hround := DistanceStage.round_afterRounds hfresh' hup
  have hrounds := Engine.rounds_eq (Lookup.total_ofStore σ.store) k e #[] fuel (by omega)
    (fun i hi => by rw [(hround i).2, hbusy i hi]; rfl) (by rw [(hround k).2, hquiet]; rfl)
  rw [Array.empty_append] at hrounds
  -- staging what the rounds made, and closing the stage
  have heff : (e.madeIn (Lookup.ofStore σ.store) (k + 1)).toList = σ.made (k + 1) :=
    DistanceStage.madeIn_eq hfresh' hup (k + 1)
  have hhold : ∀ m ∈ σ.made (k + 1), m.Holdable := fun m hm => by
    obtain ⟨i, -, v, -, hm⟩ := DistanceStage.mem_made.mp hm
    exact DistanceStage.holdable_of_mem_madeAt hm
  have hstage := Shard.forM_stage_held _ d.shard hhold
  rw [hd.nothingHeld] at hstage
  obtain ⟨closed, hclose⟩ := Shard.stageClose_writes (s := { d.shard with
    staged := (σ.made (k + 1)).foldl (fun (st : Staged) m => (st.stage m).1) Staged.empty }) hl hwf
  have hrun := LocalDb.process_eq
    (Shard.process_idle hl hwf hd.nothingHeld hsingles 100000) hd.enabled
    (by rw [hgroups]; simp) (by rw [hd.idle, hgroups]; exact hsetup) hrounds
    (by rw [heff]; exact hstage) hclose
  -- a graph with a vertex runs round 0 with programs active
  have hpos : ∀ x ∈ d.shard.store.txVertices domain, ∃ j, k = j + 1 := by
    intro x hx
    cases k with
    | zero =>
      have hempty := (DistanceStage.quiet_zero_iff hσ).mp hquiet
      exact absurd (hempty ▸ hx) (Finset.notMem_empty x)
    | succ j => exact ⟨j, rfl⟩
  refine ⟨_, _, hrun, ?_, fun v hv => ?_, fun u w huw => ?_⟩
  · show (e.afterRounds _ (k + 1)).iter ≤ _
    rw [(DistanceStage.afterRounds_eq hfresh' hup k).2.1]
    omega
  · -- a vertex of the graph: one distance entry, and the last value saved for it
    have hvW : (σ.graph, v) ∈ σ.vertices := (hσ.vertices_iff v).mpr hv
    obtain ⟨j, rfl⟩ := hpos v hv
    have hq := ((DistanceStage.quiet_succ_iff hσ j).mp hquiet v).symm
    refine ⟨(σ.dist (j + 1) v).toNat, hleast v, ?_⟩
    have hget := Shard.get?_close_inserted (s := d.shard) hl hd.noWaiters
      (DistanceStage.tagRemovals_made _) (hfresh v) (DistanceStage.inserted_made (k := j + 1 + 1) hW hvW (by omega))
      (fun p hp hpk => by
        have hinfo := DistanceStage.key_of_tagAddition_made hp
        rw [hpk] at hinfo
        exact ChainInfo.pack_ne_of_kind (by decide) _ _ _ _ hinfo)
    have hlast : EntryStore.lastWrite ((σ.made (j + 1 + 1)).filterMap Mutation.valueUpdate?)
        (GroupFilter.distanceKey domain v) =
          some (Bytes.ofString (toString (σ.dist (j + 1) v).toNat)) :=
      DistanceStage.lastWrite_made hW hvW hq
    rw [hlast] at hget
    exact hget
  · -- an edge of the graph: its source stood in the last round and tagged it done
    have hu := huw.mem_txVertices.1
    obtain ⟨j, rfl⟩ := hpos u hu
    have hq := (DistanceStage.quiet_succ_iff hσ j).mp hquiet
    obtain ⟨d0, hd0, hkey⟩ := List.mem_map.mp huw
    obtain ⟨d1, hd1⟩ : ∃ d1, d.shard.store.get? ⟨GroupFilter.txGraph domain, u, w⟩ = some d1 :=
      Option.isSome_iff_exists.mp (List.find?_isSome.mpr ⟨d0, hd0, by simp [hkey]⟩)
    have hdrawn : GroupFilter.txGraph domain &&& Key.randomBit = 0 :=
      ChainInfo.pack_and_randomBit hd.domain_lt _ _
    have hr : d0.key.isRandom = false := by simp [Key.isRandom, hkey, hdrawn]
    have hvW : (σ.graph, d0.key.b) ∈ σ.vertices := by
      rw [hkey]
      exact (hσ.vertices_iff u).mpr hu
    have ht := DistanceStage.tagAddition_made hd0 hr (by rw [hkey]; rfl) hvW (hq d0.key.b).symm
    rw [hkey] at ht
    exact Shard.get?_close_tagged (s := d.shard) hl hd.noWaiters
      (DistanceStage.tagRemovals_made _) hd1
      (fun e he hek => by
        obtain ⟨x, hx⟩ := DistanceStage.key_of_inserted_made he
        exact GroupFilter.distanceKey_ne _ _ x u w (hx.symm.trans hek)) ht

/-- An edge from vertex 1 to vertex 2 of the BTC graph, vertex 1 seeded with 0, meets every
condition of the search. -/
theorem subgraph_search_distances_seeded_edge :
    let store := (EntryStore.withLimit none).writeAll
      [.insert (Entry.make ⟨GroupFilter.txGraph 0, 1, 2⟩ ["e"] []),
       .insert (Entry.make (GroupFilter.seedKey 0 1) [] (Bytes.ofString "0"))]
    let d : LocalDb := ⟨{ Shard.make store Catalog.builtin default with
      filters := ⟨Catalog.builtin, [], [.group (.subgraph "BTC" 0)]⟩ }, Engine.empty, false⟩
    d.SearchReady "BTC" 0 ∧ (∀ v, d.shard.store.get? (GroupFilter.distanceKey 0 v) = none) ∧
      (∀ e ∈ d.shard.store.entries, e.key.info = GroupFilter.txGraph 0 →
        e.hasTag (doneTag ("BTC" ++ "_tx_subgraph_search")) = false) ∧
      (d.shard.store.txVertices 0).card < 3 ∧
      ∃ r d', d.process 3 = .ok r d' ∧
        r.iterations ≤ (d.shard.store.txVertices 0).card + 1 ∧
        (∀ v ∈ d.shard.store.txVertices 0, ∃ D : Nat,
          IsLeast (Walk.offers (d.shard.store.TxEdge 0) unreached
            (fun u => (d.shard.store.seedOf 0 u).toNat) v) D ∧
          d'.shard.store.get? (GroupFilter.distanceKey 0 v) =
            some (Entry.make (GroupFilter.distanceKey 0 v) ["BTC", "TX_DISTANCE"]
              (Bytes.ofString (toString D)))) ∧
        ∀ u w, d.shard.store.TxEdge 0 u w → ∃ e,
          d'.shard.store.get? ⟨GroupFilter.txGraph 0, u, w⟩ = some e ∧
            e.hasTag (doneTag ("BTC" ++ "_tx_subgraph_search")) = true := by
  intro store d
  have hentries : d.shard.store.entries =
      [Entry.make ⟨GroupFilter.txGraph 0, 1, 2⟩ ["e"] [],
       Entry.make (GroupFilter.seedKey 0 1) [] (Bytes.ofString "0")] := by decide +kernel
  have hd : d.SearchReady "BTC" 0 :=
    ⟨.writeAll .start (by decide +kernel), rfl, rfl, rfl, rfl, rfl, by decide⟩
  have hfresh : ∀ v, d.shard.store.get? (GroupFilter.distanceKey 0 v) = none := by
    intro v
    refine List.find?_eq_none.mpr fun e he hk => ?_
    rw [hentries] at he
    simp only [List.mem_cons, List.not_mem_nil, or_false] at he
    -- neither entry is of the distance kind
    rcases he with rfl | rfl <;>
      exact ChainInfo.pack_ne_of_kind (by decide) _ _ _ _ (congrArg Key.info (of_decide_eq_true hk))
  have hopen : ∀ e ∈ d.shard.store.entries, e.key.info = GroupFilter.txGraph 0 →
      e.hasTag (doneTag ("BTC" ++ "_tx_subgraph_search")) = false := by
    rw [hentries]
    decide
  have hfuel : (d.shard.store.txVertices 0).card < 3 := by decide +kernel
  exact ⟨hd, hfresh, hopen, hfuel, subgraph_search_distances hd hfresh hopen hfuel⟩

/-- Without the condition that nobody waits, an edge can end without its done tag: the edge is
subscribed to lose the tag when the distance of vertex 2 appears, and that distance is made in
the same close that tags the edge, so the wake takes the tag back. -/
theorem waiting_wake_takes_done_back :
    let edge : Key := ⟨GroupFilter.txGraph 0, 1, 2⟩
    let store := (EntryStore.withLimit none).writeAll [.insert (Entry.make edge ["e"] [])]
    let d : LocalDb := ⟨{ Shard.make store Catalog.builtin default with
      waiters := Waiters.empty.register (GroupFilter.distanceKey 0 2) edge
        (.removeTag (doneTag "BTC_tx_subgraph_search"))
      filters := ⟨Catalog.builtin, [], [.group (.subgraph "BTC" 0)]⟩ }, Engine.empty, false⟩
    let after := (LocalDb.process 3 *> get).run' d
    d.shard.store.TxEdge 0 1 2 ∧
      (after.bind fun d' => d'.shard.store.get? edge).map
        (·.hasTag (doneTag ("BTC" ++ "_tx_subgraph_search"))) = some false := by
  intro edge store d after
  refine ⟨?_, ?_⟩
  · unfold EntryStore.TxEdge
    decide +kernel
  · decide +kernel

end LocalDb

end ShardStore
