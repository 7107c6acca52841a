import Mathlib.Algebra.Order.BigOperators.Group.List
import Mathlib.Data.Finset.Card
import ShardStore.Proofs.Shard.Rounds
/-!
Splitting blocks settles.

With only the block splitters installed, on a store without a limit, with nothing held and no
subscription waiting, processing stops within `2 B + 1` sweeps, `B` the number of entries tagged
`block`, and leaves no entry a splitter still applies to.

The measure counts, for each splitter, the keys of the blocks it has left unsettled: tagged
`block`, without its done tag and without its fail tag (`EntryStore.awaiting`). A round never
adds to it. The entries a round adds are transactions, tagged with their chain, `tx` and
`txid=<id>`, never `block`; a merge or a tag addition only adds tags; so a key tagged `block`
after the round was tagged so before, and a tag once there stays. A round that runs a splitter
on a block commits the splitter's done or fail tag on its key in the same close, so that key
leaves the splitter's count. The count starts at most `2 B`, and every round that makes anything
takes at least one key off it.

The argument needs that nobody waits: a waiter woken by a new transaction may tag another entry
`block`, and then the count grows. Nothing here looks into how a block is read: every
transaction it yields is tagged `txid=` and its id, and that is all the argument uses.
-/

namespace ShardStore

/-- What `mapM` in `Option` returns comes, element by element, from the list it maps. -/
theorem mem_of_mapM_eq_some {α β : Type} {f : α → Option β} :
    ∀ {l : List α} {l' : List β}, l.mapM f = some l' → ∀ b ∈ l', ∃ a ∈ l, f a = some b
  | [], l', h, b, hb => by
    simp only [List.mapM_nil, Option.pure_def, Option.some.injEq] at h
    subst h
    exact absurd hb List.not_mem_nil
  | a :: l, l', h, b, hb => by
    simp only [List.mapM_cons, Option.bind_eq_bind, Option.bind_eq_some_iff, Option.pure_def,
      Option.some.injEq] at h
    obtain ⟨b₀, hb₀, bs, hbs, rfl⟩ := h
    rcases List.mem_cons.mp hb with rfl | hb
    · exact ⟨a, List.mem_cons_self, hb₀⟩
    · obtain ⟨a', ha', hf⟩ := mem_of_mapM_eq_some hbs b hb
      exact ⟨a', List.mem_cons_of_mem _ ha', hf⟩

namespace Split

theorem txKey?_c {domain : UInt32} {txid : String} {k : Key} (h : txKey? domain txid = some k) :
    k.c = 0 := by
  simp only [txKey?, Option.bind_eq_bind, Option.bind_eq_some_iff, Option.pure_def,
    Option.some.injEq] at h
  obtain ⟨_, _, _, _, rfl⟩ := h
  rfl

/-- Every transaction read from a block has a key of its own, never the unassigned one, and a
tag `txid=` followed by its id. -/
theorem mem_transactions {domain : UInt32} {raw : Bytes} {txs : List (Key × String × Bytes)}
    (h : transactions domain raw = some txs) :
    ∀ x ∈ txs, x.1.c = 0 ∧ ∃ id, x.2.1 = "txid=" ++ id := by
  intro x hx
  unfold transactions at h
  cases hp : (Json.parseBytes raw).toOption with
  | none => simp [hp] at h
  | some block =>
    simp only [hp, Option.bind_eq_bind, Option.bind_some] at h
    split at h
    · obtain ⟨tx, -, hf⟩ := mem_of_mapM_eq_some h x hx
      -- a transaction that is no object, or has no string id, yields nothing
      split at hf
      · simp at hf
      · split at hf
        · rename_i id _
          simp only [Option.bind_eq_some_iff, Option.pure_def, Option.some.injEq] at hf
          obtain ⟨k, hk, rfl⟩ := hf
          exact ⟨txKey?_c hk, id, rfl⟩
        · simp at hf
    · simp at h

end Split

namespace Entry

/-- A merged entry has the tags of the two merged and `MERGED`, and no other. -/
theorem hasTag_of_merge {d e : Entry} {u : String} (h : (d.merge e).1.hasTag u = true) :
    d.hasTag u = true ∨ e.hasTag u = true ∨ u = mergedTag := by
  unfold merge at h
  split at h
  · exact .inl h
  · simp only [hasTag_iff, TagSet.insert, TagSet.mem_insertSorted, TagSet.union,
      TagSet.mem_foldl_insert] at h ⊢
    rcases h with h | h | h
    · exact .inr (.inr h)
    · exact .inl h
    · exact .inr (.inl h)

theorem hasTag_make {k : Key} {ts : List String} {v : Bytes} {u : String} :
    (make k ts v).hasTag u = true ↔ u ∈ ts := by
  simp [make, hasTag_iff, TagSet.ofList, TagSet.mem_foldl_insert, TagSet.empty]

end Entry

theorem block_ne_txid (id : String) : "block" ≠ "txid=" ++ id := by
  intro h
  have := congrArg String.toList h
  simp at this

namespace Staged

/-- A tag that no staged entry has, other than `MERGED`, no held entry has. -/
theorem lacks_putEntry {u : String} (hu : u ≠ Entry.mergedTag) {e : Entry}
    (he : e.hasTag u = false) :
    ∀ (ds : List Entry), (∀ d ∈ ds, d.hasTag u = false) → ∀ d ∈ putEntry e ds, d.hasTag u = false
  | [], _, d, hd => by
    rw [putEntry, List.mem_singleton] at hd
    exact hd ▸ he
  | d₀ :: ds, hds, d, hd => by
    unfold putEntry at hd
    split at hd
    · rcases List.mem_cons.mp hd with rfl | hd
      · exact he
      · exact hds d hd
    · rcases List.mem_cons.mp hd with rfl | hd
      · -- the merge of two entries without the tag
        refine Bool.eq_false_iff.mpr fun h => ?_
        rcases Entry.hasTag_of_merge h with h | h | h
        · exact absurd h (by simp [hds d₀ List.mem_cons_self])
        · exact absurd h (by simp [he])
        · exact hu h
      · exact hds d (List.mem_cons_of_mem _ hd)
    · rcases List.mem_cons.mp hd with rfl | hd
      · exact hds _ List.mem_cons_self
      · exact lacks_putEntry hu he ds (fun d' hd' => hds d' (List.mem_cons_of_mem _ hd')) d hd

theorem lacks_foldl_putEntry {u : String} (hu : u ≠ Entry.mergedTag) :
    ∀ (es ds : List Entry), (∀ e ∈ es, e.hasTag u = false) → (∀ d ∈ ds, d.hasTag u = false) →
      ∀ d ∈ es.foldl (fun ds e => putEntry e ds) ds, d.hasTag u = false
  | [], _, _, hds => hds
  | e :: es, ds, hes, hds =>
    lacks_foldl_putEntry hu es _ (fun e' he' => hes e' (List.mem_cons_of_mem _ he'))
      (lacks_putEntry hu (hes e List.mem_cons_self) ds hds)

end Staged

namespace SingleFilter

/-- The block splitters of the built-in bundle. -/
def splitters : List SingleFilter := [.blockToTx "BTC" 0, .blockToTx "DOGE" 6]

/-- A block a filter has left unsettled: tagged `block`, with neither its done nor its fail
tag. -/
def Unsettled (f : SingleFilter) (e : Entry) : Bool :=
  e.hasTag "block" && !e.hasTag (doneTag f.name) && !e.hasTag (failTag f.name)

/-- What a splitter makes of the block `e`: a transaction, keyed and tagged with a set without
`block`, or its own done or fail tag on `e`. -/
def SplitsBlock (f : SingleFilter) (e : Entry) : Mutation → Prop
  | .addEntry d => d.key ≠ Key.unassigned ∧ d.tags.Ascending ∧ d.hasTag "block" = false
  | .addTag k t => k = e.key ∧ (t = doneTag f.name ∨ t = failTag f.name)
  | _ => False

/-- A splitter's chain tag, done tag and fail tag are none of them `block`. -/
theorem mem_splitters {f : SingleFilter} (hf : f ∈ splitters) :
    ∃ chain domain, f = blockToTx chain domain ∧ chain ≠ "block" ∧
      doneTag f.name ≠ "block" ∧ failTag f.name ≠ "block" := by
  simp only [splitters, List.mem_cons, List.not_mem_nil, or_false] at hf
  rcases hf with rfl | rfl
  · exact ⟨"BTC", 0, rfl, by decide, by decide, by decide⟩
  · exact ⟨"DOGE", 6, rfl, by decide, by decide, by decide⟩

theorem unsettled_of_shouldRun {chain : String} {domain : UInt32} {e : Entry}
    (h : (blockToTx chain domain).shouldRun e = true) :
    (blockToTx chain domain).Unsettled e = true := by
  simp only [shouldRun, Bool.and_eq_true, Bool.not_eq_true'] at h
  simp [Unsettled, h]

/-- A splitter reads the block: every transaction it finds becomes a new entry, and then it
leaves its done tag; a block it cannot read gets its fail tag. -/
theorem run_blockToTx {chain : String} (hc : chain ≠ "block") (domain : UInt32) (look : Lookup)
    (e : Entry) :
    ∃ ms, (blockToTx chain domain).run look e = .ok ms ∧
      (.addTag e.key (doneTag (blockToTx chain domain).name) ∈ ms ∨
        .addTag e.key (failTag (blockToTx chain domain).name) ∈ ms) ∧
      ∀ m ∈ ms, (blockToTx chain domain).SplitsBlock e m := by
  cases ht : Split.transactions domain e.value with
  | none =>
    refine ⟨_, by simp only [run, ht]; rfl, .inr List.mem_cons_self, fun m hm => ?_⟩
    rw [List.mem_singleton.mp hm]
    exact ⟨rfl, .inr rfl⟩
  | some txs =>
    refine ⟨_, by simp only [run, ht]; rfl,
      .inl (List.mem_append_right _ List.mem_cons_self), fun m hm => ?_⟩
    rcases List.mem_append.mp hm with hm | hm
    · -- a transaction of the block
      obtain ⟨⟨k, idTag, v⟩, hx, rfl⟩ := List.mem_map.mp hm
      obtain ⟨hk, id, rfl⟩ : k.c = 0 ∧ ∃ id, idTag = "txid=" ++ id :=
        Split.mem_transactions ht _ hx
      refine ⟨fun h => ?_, TagSet.ascending_ofList _, Bool.eq_false_iff.mpr fun h => ?_⟩
      · have hc : k.c = Key.unassigned.c := congrArg Key.c h
        rw [hk] at hc
        exact absurd hc (by decide)
      · have hmem : "block" ∈ [chain, "tx", "txid=" ++ id] := Entry.hasTag_make.mp h
        simp only [List.mem_cons, List.not_mem_nil, or_false] at hmem
        rcases hmem with h | h | h
        · exact hc h.symm
        · exact absurd h (by decide)
        · exact block_ne_txid id h
    · rw [List.mem_singleton.mp hm]
      exact ⟨rfl, .inl rfl⟩

end SingleFilter

namespace EntryStore

/-! ### The measure -/

/-- The keys of the blocks a filter has left unsettled. -/
def awaiting (st : EntryStore) (f : SingleFilter) : Finset Key :=
  st.keys.toFinset.filter fun k => (st.get? k).any f.Unsettled

theorem mem_awaiting {st : EntryStore} {f : SingleFilter} {k : Key} :
    k ∈ st.awaiting f ↔ ∃ d, st.get? k = some d ∧ f.Unsettled d = true := by
  simp only [awaiting, Finset.mem_filter, List.mem_toFinset, keys]
  constructor
  · rintro ⟨-, h⟩
    cases hd : st.get? k with
    | none => simp [hd] at h
    | some d => exact ⟨d, rfl, by simpa [hd] using h⟩
  · rintro ⟨d, hd, hu⟩
    obtain ⟨hmem, hkey⟩ := get?_key hd
    exact ⟨List.mem_map.mpr ⟨d, hmem, hkey⟩, by simp [hd, hu]⟩

/-- A filter has no more blocks to settle than there are blocks. -/
theorem card_awaiting_le (st : EntryStore) (f : SingleFilter) :
    (st.awaiting f).card ≤ (st.entries.filter (·.hasTag "block")).length := by
  calc (st.awaiting f).card
      ≤ ((st.entries.filter (·.hasTag "block")).map (·.key)).toFinset.card := by
        refine Finset.card_le_card fun k hk => ?_
        obtain ⟨d, hd, hu⟩ := mem_awaiting.mp hk
        obtain ⟨hmem, hkey⟩ := get?_key hd
        have hb : d.hasTag "block" = true := by
          simp only [SingleFilter.Unsettled, Bool.and_eq_true] at hu
          exact hu.1.1
        exact List.mem_toFinset.mpr (List.mem_map.mpr ⟨d, List.mem_filter.mpr ⟨hmem, hb⟩, hkey⟩)
    _ ≤ ((st.entries.filter (·.hasTag "block")).map (·.key)).length := List.toFinset_card_le _
    _ = (st.entries.filter (·.hasTag "block")).length := List.length_map _

/-- The blocks still to settle, over the splitters. -/
def splitsLeft (st : EntryStore) : Nat :=
  (SingleFilter.splitters.map fun f => (st.awaiting f).card).sum

theorem splitsLeft_le (st : EntryStore) :
    st.splitsLeft ≤ 2 * (st.entries.filter (·.hasTag "block")).length := by
  have h := List.sum_le_card_nsmul (SingleFilter.splitters.map fun f => (st.awaiting f).card)
    (st.entries.filter (·.hasTag "block")).length (by
      simp only [List.mem_map]
      rintro _ ⟨f, -, rfl⟩
      exact card_awaiting_le st f)
  simpa [splitsLeft, SingleFilter.splitters] using h

/-! ### The writes of a round -/

namespace Write

/-- A write of a round of splitting: the insert of an entry with a tag set and without the tag
`block`, or the addition of another tag. -/
def Splits : Write → Prop
  | .insert d => d.tags.Ascending ∧ d.hasTag "block" = false
  | .addTag _ t => t ≠ "block"
  | _ => False

theorem Splits.tagsAscending {w : Write} (h : w.Splits) : w.TagsAscending := by
  cases w with
  | insert d => exact h.1
  | addTag | removeTag | setValue | clear => trivial

/-- Such a write keeps the entry it finds, with all its tags. -/
theorem Splits.onKey_some {w : Write} (h : w.Splits) (j : Key) (d : Entry) :
    ∃ d', w.onKey j (some d) = some d' ∧ ∀ u, d.hasTag u = true → d'.hasTag u = true := by
  cases w with
  | insert e =>
    by_cases hk : e.key = j
    · exact ⟨(d.merge e).1, by simp [onKey, hk, absorb], fun u hu => Entry.hasTag_merge hu⟩
    · exact ⟨d, by simp [onKey, hk], fun _ hu => hu⟩
  | addTag k t =>
    by_cases hk : k = j
    · by_cases ht : d.hasTag t
      · exact ⟨d, by simp [onKey, hk, ht], fun _ hu => hu⟩
      · exact ⟨(d.addTag t).1, by simp [onKey, hk, ht], fun u hu =>
          Entry.hasTag_addTag.mpr (.inr hu)⟩
    · exact ⟨d, by simp [onKey, hk], fun _ hu => hu⟩
  | removeTag | setValue | clear => exact h.elim

/-- Such a write leaves a key tagged `block` only if it was tagged so before. -/
theorem Splits.block_of_onKey {w : Write} (h : w.Splits) {j : Key} {o : Option Entry}
    {d' : Entry} (hd : w.onKey j o = some d') (hb : d'.hasTag "block" = true) :
    ∃ d, o = some d ∧ d.hasTag "block" = true := by
  cases w with
  | insert e =>
    simp only [onKey] at hd
    split at hd
    · cases o with
      | none =>
        simp only [absorb, Option.some.injEq] at hd
        subst hd
        rw [h.2] at hb
        cases hb
      | some d =>
        simp only [absorb, Option.some.injEq] at hd
        subst hd
        rcases Entry.hasTag_of_merge hb with hb | hb | hb
        · exact ⟨d, rfl, hb⟩
        · rw [h.2] at hb
          cases hb
        · exact absurd hb (by decide)
    · exact ⟨d', hd, hb⟩
  | addTag k t =>
    simp only [onKey] at hd
    split at hd
    · obtain ⟨d, rfl, hdd⟩ := Option.map_eq_some_iff.mp hd
      refine ⟨d, rfl, ?_⟩
      split at hdd
      · exact hdd ▸ hb
      · subst hdd
        rcases Entry.hasTag_addTag.mp hb with hb | hb
        · exact absurd hb.symm h
        · exact hb
    · exact ⟨d', hd, hb⟩
  | removeTag | setValue | clear => exact h.elim

end Write

section Writes

variable {ws : List Write}

/-- The writes of a round keep every entry with all its tags. -/
theorem foldl_onKey_some (j : Key) : ∀ {ws : List Write}, (∀ w ∈ ws, w.Splits) → ∀ d : Entry,
    ∃ d', ws.foldl (fun o w => w.onKey j o) (some d) = some d' ∧
      ∀ u, d.hasTag u = true → d'.hasTag u = true
  | [], _, d => ⟨d, rfl, fun _ hu => hu⟩
  | w :: ws, hws, d => by
    obtain ⟨d₁, h₁, hg₁⟩ := (hws w List.mem_cons_self).onKey_some j d
    obtain ⟨d₂, h₂, hg₂⟩ :=
      foldl_onKey_some j (fun w' hw' => hws w' (List.mem_cons_of_mem _ hw')) d₁
    refine ⟨d₂, ?_, fun u hu => hg₂ u (hg₁ u hu)⟩
    rw [List.foldl_cons, h₁, h₂]

/-- After the writes of a round, a key is tagged `block` only if it was before. -/
theorem foldl_onKey_block (j : Key) : ∀ {ws : List Write}, (∀ w ∈ ws, w.Splits) →
    ∀ {o : Option Entry} {d' : Entry}, ws.foldl (fun o w => w.onKey j o) o = some d' →
      d'.hasTag "block" = true → ∃ d, o = some d ∧ d.hasTag "block" = true
  | [], _, _, _, hd, hb => ⟨_, hd, hb⟩
  | w :: ws, hws, o, d', hd, hb => by
    rw [List.foldl_cons] at hd
    obtain ⟨d₁, h₁, hb₁⟩ :=
      foldl_onKey_block j (fun w' hw' => hws w' (List.mem_cons_of_mem _ hw')) hd hb
    exact (hws w List.mem_cons_self).block_of_onKey h₁ hb₁

/-- A tag the writes of a round add to a held key is there at the end. -/
theorem foldl_onKey_addTag {j : Key} {t : String} : ∀ {ws : List Write},
    (∀ w ∈ ws, w.Splits) → .addTag j t ∈ ws → ∀ d : Entry,
      ∃ d', ws.foldl (fun o w => w.onKey j o) (some d) = some d' ∧ d'.hasTag t = true
  | [], _, hmem, _ => absurd hmem List.not_mem_nil
  | w :: ws, hws, hmem, d => by
    have hws' : ∀ w' ∈ ws, w'.Splits := fun w' hw' => hws w' (List.mem_cons_of_mem _ hw')
    obtain ⟨d₁, h₁, hg₁⟩ := (hws w List.mem_cons_self).onKey_some j d
    rw [List.foldl_cons, h₁]
    rcases List.mem_cons.mp hmem with rfl | hmem
    · -- the addition itself; what follows keeps the tag
      have ht : d₁.hasTag t = true := by
        simp only [Write.onKey, if_true, Option.map_some, Option.some.injEq] at h₁
        split at h₁
        · exact h₁ ▸ ‹d.hasTag t = true›
        · exact h₁ ▸ Entry.hasTag_addTag.mpr (.inl rfl)
      obtain ⟨d₂, h₂, hg₂⟩ := foldl_onKey_some j hws' d₁
      exact ⟨d₂, h₂, hg₂ t ht⟩
    · exact foldl_onKey_addTag hws' hmem d₁

/-- A round's writes leave no block unsettled that was settled before. -/
theorem awaiting_writeAll_subset {st : EntryStore} (hl : st.limit = none)
    (hws : ∀ w ∈ ws, w.Splits) (f : SingleFilter) :
    (st.writeAll ws).awaiting f ⊆ st.awaiting f := by
  intro k hk
  obtain ⟨d', hd', hu⟩ := mem_awaiting.mp hk
  rw [get?_writeAll ws hl] at hd'
  simp only [SingleFilter.Unsettled, Bool.and_eq_true, Bool.not_eq_true'] at hu
  obtain ⟨⟨hb, hdone⟩, hfail⟩ := hu
  -- the key held a block before, and every tag it had then it has now
  obtain ⟨d, hd, hbd⟩ := foldl_onKey_block k hws hd' hb
  obtain ⟨d'', hd'', hg⟩ := foldl_onKey_some k hws d
  rw [← hd, hd', Option.some.injEq] at hd''
  subst hd''
  have hdone' : d.hasTag (doneTag f.name) = false := Bool.eq_false_iff.mpr fun h => by
    rw [hg _ h] at hdone
    cases hdone
  have hfail' : d.hasTag (failTag f.name) = false := Bool.eq_false_iff.mpr fun h => by
    rw [hg _ h] at hfail
    cases hfail
  exact mem_awaiting.mpr ⟨d, hd, by simp [SingleFilter.Unsettled, hbd, hdone', hfail']⟩

/-- A held key that a round's writes give a filter's done or fail tag is settled for it. -/
theorem not_mem_awaiting_writeAll {st : EntryStore} (hl : st.limit = none)
    (hws : ∀ w ∈ ws, w.Splits) {f : SingleFilter} {k : Key} {t : String}
    (hmem : .addTag k t ∈ ws) (hk : st.contains k = true)
    (ht : t = doneTag f.name ∨ t = failTag f.name) :
    k ∉ (st.writeAll ws).awaiting f := by
  intro hk'
  obtain ⟨d', hd', hu⟩ := mem_awaiting.mp hk'
  obtain ⟨d, hd⟩ := Option.isSome_iff_exists.mp hk
  obtain ⟨d'', hd'', ht''⟩ := foldl_onKey_addTag hws hmem d
  rw [get?_writeAll ws hl, hd, hd'', Option.some.injEq] at hd'
  subst hd'
  simp only [SingleFilter.Unsettled, Bool.and_eq_true, Bool.not_eq_true'] at hu
  rcases ht with rfl | rfl
  · rw [ht''] at hu
    exact absurd hu.1.2 (by simp)
  · rw [ht''] at hu
    exact absurd hu.2 (by simp)

end Writes

end EntryStore

namespace Shard

variable {s : Shard}

/-- A shard whose single-entry rounds only split blocks: its store has no limit and was built by
writes, nothing is held, no subscription waits, and every installed single-entry filter is a
block splitter. -/
structure SplitsOnly (s : Shard) : Prop where
  reachable : EntryStore.Reachable none s.store
  nothingHeld : s.staged = Staged.empty
  noWaiters : s.waiters = Waiters.empty
  splitters : ∀ f ∈ s.filters.singles, f ∈ SingleFilter.splitters

/-- A sweep of such a shard goes through. Each mutation it makes is what a splitter makes of a
block it runs on, and each run leaves its done or fail tag among them. -/
theorem SplitsOnly.sweep (hs : s.SplitsOnly) :
    ∃ w, s.sweep (Lookup.ofStore s.store) = .ok w ∧
      (∀ m ∈ w.mutations, ∃ e ∈ s.store.entries, ∃ f ∈ s.filters.singles,
        f.shouldRun e = true ∧ f.SplitsBlock e m) ∧
      ∀ e ∈ s.store.entries, ∀ f ∈ s.filters.singles, f.shouldRun e = true →
        .addTag e.key (doneTag f.name) ∈ w.mutations ∨
          .addTag e.key (failTag f.name) ∈ w.mutations := by
  have hrun : ∀ e ∈ s.store.entries, ∀ f ∈ s.filters.singles, f.shouldRun e = true →
      ∃ ms, f.run (Lookup.ofStore s.store) e = .ok ms := by
    intro e _ f hf _
    obtain ⟨chain, domain, rfl, hc, -⟩ := SingleFilter.mem_splitters (hs.splitters f hf)
    obtain ⟨ms, hms, -⟩ := SingleFilter.run_blockToTx hc domain (Lookup.ofStore s.store) e
    exact ⟨ms, hms⟩
  refine ⟨_, sweep_eq hrun, fun m hm => ?_, fun e he f hf hr => ?_⟩
  · obtain ⟨e, he, f, hf, hm⟩ : ∃ e ∈ s.store.entries, ∃ f ∈ s.filters.singles,
        m ∈ f.sweepOutput (Lookup.ofStore s.store) e := by
      simpa only [List.mem_flatMap] using hm
    obtain ⟨chain, domain, rfl, hc, -⟩ := SingleFilter.mem_splitters (hs.splitters f hf)
    obtain ⟨ms, hms, -, hall⟩ := SingleFilter.run_blockToTx hc domain (Lookup.ofStore s.store) e
    by_cases hr : (SingleFilter.blockToTx chain domain).shouldRun e
    · simp only [SingleFilter.sweepOutput, hr, if_true, hms] at hm
      exact ⟨e, he, _, hf, hr, hall m hm⟩
    · simp [SingleFilter.sweepOutput, hr] at hm
  · obtain ⟨chain, domain, rfl, hc, -⟩ := SingleFilter.mem_splitters (hs.splitters f hf)
    obtain ⟨ms, hms, hset, -⟩ := SingleFilter.run_blockToTx hc domain (Lookup.ofStore s.store) e
    -- the run's mutations are among the sweep's
    have hsub : ∀ m ∈ ms, m ∈ s.store.entries.flatMap fun e =>
        s.filters.singles.flatMap fun f => f.sweepOutput (Lookup.ofStore s.store) e := by
      intro m hm
      refine List.mem_flatMap.mpr ⟨e, he, List.mem_flatMap.mpr ⟨_, hf, ?_⟩⟩
      simpa only [SingleFilter.sweepOutput, hr, if_true, hms] using hm
    exact hset.imp (hsub _) (hsub _)

/-- The writes that close the stage of a round of splitting are writes of splitting. -/
theorem splits_writes {ms : List Mutation}
    (hms : ∀ m ∈ ms, ∃ e, ∃ f ∈ SingleFilter.splitters, f.SplitsBlock e m) :
    ∀ w ∈ (ms.foldl (fun st m => (st.stage m).1) Staged.empty).writes, w.Splits := by
  rw [Staged.foldl_stage]
  intro w hw
  simp only [Staged.writes, Staged.empty, List.nil_append, List.mem_append, List.mem_map] at hw
  rcases hw with ((⟨d, hd, rfl⟩ | ⟨p, hp, rfl⟩) | ⟨p, hp, rfl⟩) | ⟨p, hp, rfl⟩
  · -- a held entry: a merge of transactions
    have hes : ∀ e ∈ ms.filterMap Mutation.inserted?,
        e.tags.Ascending ∧ e.hasTag "block" = false := by
      intro e he
      obtain ⟨m, hm, hme⟩ := List.mem_filterMap.mp he
      obtain ⟨b, f, -, hsb⟩ := hms m hm
      rw [Mutation.inserted?_eq_some.mp hme] at hsb
      exact hsb.2
    exact ⟨Staged.tags_foldl_putEntry (fun e he => (hes e he).1) d hd,
      Staged.lacks_foldl_putEntry (by decide) _ [] (fun e he => (hes e he).2) (by simp) d hd⟩
  · obtain ⟨m, hm, hmp⟩ := List.mem_filterMap.mp hp
    obtain ⟨b, f, -, hsb⟩ := hms m hm
    rw [Mutation.valueUpdate?_eq_some.mp hmp] at hsb
    exact hsb.elim
  · obtain ⟨m, hm, hmp⟩ := List.mem_filterMap.mp hp
    obtain ⟨b, f, hf, hsb⟩ := hms m hm
    rw [Mutation.tagAddition?_eq_some.mp hmp] at hsb
    obtain ⟨_, _, -, -, hdone, hfail⟩ := SingleFilter.mem_splitters hf
    rcases hsb.2 with ht | ht
    · exact ht ▸ hdone
    · exact ht ▸ hfail
  · obtain ⟨m, hm, hmp⟩ := List.mem_filterMap.mp hp
    obtain ⟨b, f, -, hsb⟩ := hms m hm
    rw [Mutation.tagRemoval?_eq_some.mp hmp] at hsb
    exact hsb.elim

/-- One round of such a shard keeps it such a shard with the same filters. A round that makes
nothing changes nothing and finds every block settled; a round that makes something settles a
block for good, so the measure drops. -/
theorem SplitsOnly.processOnce (hs : s.SplitsOnly) :
    ∃ b t, processOnce s = .ok b t ∧ t.SplitsOnly ∧ t.filters = s.filters ∧
      (b = false → t = s ∧ s.Settled) ∧
      (b = true → t.store.splitsLeft < s.store.splitsLeft) := by
  obtain ⟨hcons, hl⟩ := hs.reachable.consistent
  have hw : s.waiters.WellFormed := hs.noWaiters ▸ Waiters.wellFormed_empty
  obtain ⟨w, hsw, hmut, hset⟩ := hs.sweep
  have hm : ∀ m ∈ w.mutations, m.Holdable := by
    intro m hm
    obtain ⟨e, -, f, -, -, hsb⟩ := hmut m hm
    cases m with
    | addEntry d => exact hsb.1
    | addTag => trivial
    | removeTag | updateValue | subscribe => exact hsb.elim
  have hws := splits_writes fun m hm => by
    obtain ⟨e, -, f, hf, -, hsb⟩ := hmut m hm
    exact ⟨e, f, hs.splitters f hf, hsb⟩
  -- nobody waits, so closing the stage is its writes and nothing else
  have hstore : (s.afterClose (w.mutations.foldl (fun st m => (st.stage m).1) Staged.empty)).store
      = s.store.writeAll (w.mutations.foldl (fun st m => (st.stage m).1) Staged.empty).writes := by
    simp [afterClose, hs.noWaiters, Waiters.empty, Waiters.pending, commitWakes_nil]
  refine ⟨_, _, processOnce_run hl hw hs.nothingHeld hsw hm,
    ⟨hstore ▸ hs.reachable.writeAll fun w hw => (hws w hw).tagsAscending, rfl,
      by simp [afterClose, hs.noWaiters, Waiters.empty], hs.splitters⟩, rfl, fun hb => ?_,
    fun hb => ?_⟩
  · -- the sweep made nothing
    have hnil : w.mutations = [] := by simpa using hb
    refine ⟨by rw [hnil, List.foldl_nil, afterClose_empty hs.nothingHeld], fun e he f hf => ?_⟩
    refine Bool.eq_false_iff.mpr fun hr => ?_
    rcases hset e he f hf hr with h | h <;> simp [hnil] at h
  · -- some splitter ran on a block and settled it
    obtain ⟨m, hm⟩ := List.exists_mem_of_ne_nil _ (by simpa using hb)
    obtain ⟨e, he, f, hf, hr, -⟩ := hmut m hm
    obtain ⟨chain, domain, rfl, -⟩ := SingleFilter.mem_splitters (hs.splitters f hf)
    have hget : s.store.get? e.key = some e :=
      EntryStore.find?_key_of_mem hcons.ascending.keys_ne he
    have hin : e.key ∈ s.store.awaiting (.blockToTx chain domain) :=
      EntryStore.mem_awaiting.mpr ⟨e, hget, SingleFilter.unsettled_of_shouldRun hr⟩
    obtain ⟨t, htm, ht⟩ : ∃ t, .addTag e.key t ∈ w.mutations ∧
        (t = doneTag (SingleFilter.blockToTx chain domain).name ∨
          t = failTag (SingleFilter.blockToTx chain domain).name) := by
      rcases hset e he _ hf hr with h | h
      · exact ⟨_, h, .inl rfl⟩
      · exact ⟨_, h, .inr rfl⟩
    have hwrite : .addTag e.key t ∈
        (w.mutations.foldl (fun st m => (st.stage m).1) Staged.empty).writes := by
      refine Staged.addTag_mem_writes ?_
      rw [Staged.foldl_stage]
      exact List.mem_append_right _ (List.mem_filterMap.mpr ⟨_, htm, rfl⟩)
    have hout := EntryStore.not_mem_awaiting_writeAll hl hws hwrite
      (by simp [EntryStore.contains, hget]) ht
    rw [hstore]
    refine List.sum_lt_sum _ _ (fun g _ => Finset.card_le_card
      (EntryStore.awaiting_writeAll_subset hl hws g)) ⟨_, hs.splitters _ hf, ?_⟩
    exact Finset.card_lt_card ⟨EntryStore.awaiting_writeAll_subset hl hws _,
      fun hsub => hout (hsub hin)⟩

/-- Rounds of such a shard, with fuel beyond the measure, run until a round makes nothing: at
most one round more than the measure, ending settled with the same filters. -/
theorem SplitsOnly.process_go : ∀ (fuel rounds : Nat) {s : Shard}, s.SplitsOnly →
    s.store.splitsLeft < fuel →
    ∃ n t, process.go rounds fuel s = .ok n t ∧ n ≤ rounds + s.store.splitsLeft ∧
      t.filters = s.filters ∧ t.Settled
  | 0, _, _, _, h => absurd h (Nat.not_lt_zero _)
  | fuel + 1, rounds, s, hs, hf => by
    obtain ⟨b, t, hrun, ht, hfil, hquiet, hless⟩ := hs.processOnce
    simp only [process.go]
    rw [bind_run hrun]
    cases b with
    | false =>
      obtain ⟨rfl, hset⟩ := hquiet rfl
      exact ⟨rounds, t, rfl, Nat.le_add_right _ _, rfl, hset⟩
    | true =>
      have hlt := hless rfl
      obtain ⟨n, u, hgo, hn, hfu, hsu⟩ := process_go fuel (rounds + 1) ht (by omega)
      exact ⟨n, u, hgo, by omega, hfu.trans hfil, hsu⟩

end Shard

/-- With only the block splitters installed, on a store without a limit that was built by
writes, with nothing held and no subscription waiting, processing with enough fuel ends within
`2 B + 1` sweeps, `B` the number of entries tagged `block`. It keeps the filters, and no stored
entry is left that an installed filter applies to, so one more sweep makes nothing. -/
theorem block_splitting_settles {s : Shard} (hs : s.SplitsOnly) {fuel : Nat}
    (hfuel : 2 * (s.store.entries.filter (·.hasTag "block")).length < fuel) :
    ∃ n t, s.process fuel = .ok n t ∧
      n ≤ 2 * (s.store.entries.filter (·.hasTag "block")).length + 1 ∧
      t.filters = s.filters ∧ t.Settled ∧ ∀ look, t.sweep look = .ok ⟨0, []⟩ := by
  have hle := s.store.splitsLeft_le
  obtain ⟨n, t, hgo, hn, hfil, hset⟩ := hs.process_go fuel 1 (by omega)
  exact ⟨n, t, hgo, by omega, hfil, hset, Shard.sweep_settled hset⟩

/-- One block whose value names one transaction, split by the splitter of its chain. -/
theorem block_splitting_settles_one_block :
    let s : Shard := { Shard.make ((EntryStore.Write.insert (Entry.make ⟨1, 1, 1⟩ ["BTC", "block"]
        (Bytes.ofString "\x7b\"tx\":[\x7b\"txid\":\"000000000000001\"\x7d]\x7d"))).apply
          (EntryStore.withLimit none)) Catalog.builtin default with
      filters := ⟨Catalog.builtin, [], [.single (.blockToTx "BTC" 0)]⟩ }
    s.SplitsOnly ∧ 2 * (s.store.entries.filter (·.hasTag "block")).length < 100000 ∧
      ∃ n t, s.process 100000 = .ok n t ∧
        n ≤ 2 * (s.store.entries.filter (·.hasTag "block")).length + 1 ∧
        t.filters = s.filters ∧ t.Settled ∧ ∀ look, t.sweep look = .ok ⟨0, []⟩ := by
  intro s
  have hs : s.SplitsOnly :=
    ⟨.step (.insert _) (by decide +kernel) .start, rfl, rfl,
      by simp [s, FilterSet.singles, SingleFilter.splitters]⟩
  have hb : 2 * (s.store.entries.filter (·.hasTag "block")).length < 100000 := by decide +kernel
  exact ⟨hs, hb, block_splitting_settles hs hb⟩

/-- Without the condition that nobody waits the bound fails: one block, two more entries of the
chain waiting on the keys of transactions to be tagged `block`, and processing takes four sweeps,
one more than `2 B + 1`. Each split inserts a transaction, whose insert wakes a waiter that makes
another entry a block. -/
theorem woken_blocks_outlast_bound :
    let blockOf (id : String) : Bytes :=
      Bytes.ofString ("\x7b\"tx\":[\x7b\"txid\":\"00000000000000" ++ id ++ "\"\x7d]\x7d")
    let store := (EntryStore.withLimit none).writeAll
      [.insert (Entry.make ⟨1, 1, 1⟩ ["BTC", "block"] (blockOf "1")),
       .insert (Entry.make ⟨1, 2, 1⟩ ["BTC"] (blockOf "2")),
       .insert (Entry.make ⟨1, 3, 1⟩ ["BTC"] (blockOf "3"))]
    let s : Shard := { Shard.make store Catalog.builtin default with
      waiters := (Waiters.empty.register ⟨983040, 1, 0⟩ ⟨1, 2, 1⟩ (.addTag "block")).register
        ⟨983040, 2, 0⟩ ⟨1, 3, 1⟩ (.addTag "block")
      filters := ⟨Catalog.builtin, [], [.single (.blockToTx "BTC" 0)]⟩ }
    (s.store.entries.filter (·.hasTag "block")).length = 1 ∧
      (Shard.process 100000).run' s = some 4 := by
  decide +kernel

end ShardStore
