import ShardStore.Proofs.Store.Merging
import ShardStore.Proofs.Shard.Splitting
/-!
Looking entries up by their tags.

A query by tags looks each tag's key set up in the index, takes the smallest and keeps the keys
that lie in all the others. It answers from the index alone, so it is right only when the index
is: on a reachable store the index holds under each tag exactly the keys whose entries carry it
(`Consistent`), and each key set is strictly ascending, since a write only slots a key into its
place or filters keys out. The keys kept are then those whose entries carry every tag, and they
come out ascending because the smallest set is; a tag nobody carries has no set and gives no
keys, and no tags at all give every key. So the query is the filter of the key-ordered entries
by their tags, and the first entry it finds is the one with the least key among those that
carry every tag.
-/

namespace ShardStore

/-- `mapM` in `Option` has a value for each element of the list it maps. -/
theorem exists_mem_of_mapM_eq_some {α β : Type} {f : α → Option β} :
    ∀ {l : List α} {l' : List β}, l.mapM f = some l' → ∀ a ∈ l, ∃ b ∈ l', f a = some b
  | [], _, _, _, ha => absurd ha List.not_mem_nil
  | a :: l, l', h, x, hx => by
    simp only [List.mapM_cons, Option.bind_eq_bind, Option.bind_eq_some_iff, Option.pure_def,
      Option.some.injEq] at h
    obtain ⟨b₀, hb₀, bs, hbs, rfl⟩ := h
    rcases List.mem_cons.mp hx with rfl | hx
    · exact ⟨b₀, List.mem_cons_self, hb₀⟩
    · obtain ⟨b, hb, hf⟩ := exists_mem_of_mapM_eq_some hbs x hx
      exact ⟨b, List.mem_cons_of_mem _ hb, hf⟩

/-- `mapM` in `Option` fails only at an element `f` fails on. -/
theorem exists_eq_none_of_mapM_eq_none {α β : Type} {f : α → Option β} :
    ∀ {l : List α}, l.mapM f = none → ∃ a ∈ l, f a = none
  | [], h => by cases h
  | a :: l, h => by
    cases ha : f a with
    | none => exact ⟨a, List.mem_cons_self, ha⟩
    | some b =>
      cases hl : l.mapM f with
      | none =>
        obtain ⟨x, hx, hf⟩ := exists_eq_none_of_mapM_eq_none hl
        exact ⟨x, List.mem_cons_of_mem _ hx, hf⟩
      | some bs => simp [List.mapM_cons, ha, hl] at h

namespace EntryStore

/-! ### The index keeps its key sets ascending -/

/-- Keys in strictly ascending order. -/
def KeysAscending (ks : List Key) : Prop := ks.Pairwise fun a b => Key.compare a b = .lt

/-- Every key set of the index is strictly ascending. -/
def IndexAscending (idx : List (String × List Key)) : Prop := ∀ p ∈ idx, KeysAscending p.2

theorem KeysAscending.nodup {ks : List Key} (h : KeysAscending ks) : ks.Nodup := by
  refine List.Pairwise.imp (fun {a b} (hlt : Key.compare a b = .lt) (heq : a = b) => ?_) h
  subst heq
  exact Key.compare_self_ne_lt a hlt

/-- Two ascending lists of the same keys are one list. -/
theorem KeysAscending.eq {ks js : List Key} (hk : KeysAscending ks) (hj : KeysAscending js)
    (h : ∀ k, k ∈ ks ↔ k ∈ js) : ks = js := by
  refine List.Perm.eq_of_pairwise (fun a b _ _ hab hba => ?_) hk hj
    ((List.perm_ext_iff_of_nodup hk.nodup hj.nodup).mpr h)
  rw [Std.OrientedCmp.gt_iff_lt.mpr hba] at hab
  cases hab

theorem insertKey_ascending (k : Key) :
    ∀ {ks : List Key}, KeysAscending ks → KeysAscending (insertKey k ks)
  | [], _ => List.pairwise_singleton _ _
  | j :: js, h => by
    obtain ⟨hj, hjs⟩ := List.pairwise_cons.mp h
    unfold insertKey
    split
    · -- the key goes in front, below `j` and so below all of `js`
      rename_i hlt
      refine List.pairwise_cons.mpr ⟨fun x hx => ?_, h⟩
      rcases List.mem_cons.mp hx with rfl | hx
      · exact hlt
      · exact Std.TransCmp.lt_trans hlt (hj x hx)
    · exact h
    · rename_i hgt
      refine List.pairwise_cons.mpr ⟨fun x hx => ?_, insertKey_ascending k hjs⟩
      rcases mem_insertKey.mp hx with rfl | hx
      · exact Std.OrientedCmp.gt_iff_lt.mp hgt
      · exact hj x hx

/-- After `alterTag t f`, a pair of the index was there before, or is `t` with `f` of its old
keys. -/
theorem mem_alterTag {t : String} {f : List Key → List Key} {p : String × List Key} :
    ∀ {idx : List (String × List Key)}, p ∈ alterTag t f idx →
      p ∈ idx ∨ p = (t, f ((idx.lookup t).getD []))
  | [], hp => by
    unfold alterTag at hp
    split at hp
    · cases hp
    · exact .inr (List.mem_singleton.mp hp)
  | (u, ks) :: rest, hp => by
    unfold alterTag at hp
    split at hp
    · rename_i hut
      subst hut
      split at hp
      · exact .inl (List.mem_cons_of_mem _ hp)
      · rcases List.mem_cons.mp hp with rfl | hp
        · exact .inr (by rw [List.lookup_cons_self]; rfl)
        · exact .inl (List.mem_cons_of_mem _ hp)
    · rename_i hut
      rcases List.mem_cons.mp hp with rfl | hp
      · exact .inl List.mem_cons_self
      · rcases mem_alterTag hp with h | h
        · exact .inl (List.mem_cons_of_mem _ h)
        · exact .inr (by rw [h, lookup_cons_of_ne (Ne.symm hut)])

theorem mem_of_lookup_eq_some {idx : List (String × List Key)} {t : String} {ks : List Key}
    (h : idx.lookup t = some ks) : (t, ks) ∈ idx := by
  obtain ⟨l₁, l₂, rfl, -⟩ := List.lookup_eq_some_iff.mp h
  exact List.mem_append_right _ List.mem_cons_self

namespace IndexAscending

variable {idx : List (String × List Key)}

theorem lookup (h : IndexAscending idx) (t : String) : KeysAscending ((idx.lookup t).getD []) := by
  cases hl : idx.lookup t with
  | none => exact List.Pairwise.nil
  | some ks => exact h _ (mem_of_lookup_eq_some hl)

theorem alterTag (h : IndexAscending idx) {t : String} {f : List Key → List Key}
    (hf : ∀ ks, KeysAscending ks → KeysAscending (f ks)) : IndexAscending (alterTag t f idx) := by
  intro p hp
  rcases mem_alterTag hp with hp | rfl
  · exact h p hp
  · exact hf _ (h.lookup t)

theorem indexTag (h : IndexAscending idx) (k : Key) (t : String) :
    IndexAscending (indexTag k t idx) :=
  h.alterTag fun _ => insertKey_ascending k

theorem unindexTag (h : IndexAscending idx) (k : Key) (t : String) :
    IndexAscending (unindexTag k t idx) :=
  h.alterTag fun _ hks => hks.filter _

theorem indexTags (h : IndexAscending idx) (e : Entry) : IndexAscending (indexTags e idx) := by
  unfold EntryStore.indexTags
  induction e.tags.toList generalizing idx with
  | nil => exact h
  | cons t ts ih => exact ih (h.indexTag e.key t)

/-- Every write keeps the key sets of the index ascending. -/
theorem apply {s : EntryStore} (h : IndexAscending s.byTag) (w : Write) :
    IndexAscending (w.apply s).byTag := by
  unfold Write.apply
  split
  · rename_i s' hrun
    cases w with
    | insert e =>
      obtain ⟨x, hx⟩ := map_snd_eq_ok hrun
      rcases insert_eq_ok hx with ⟨-, n, -, rfl⟩ | ⟨-, rfl⟩ | ⟨old, -, n, -, rfl⟩
      · exact h.indexTags e
      · exact h
      · exact h.indexTags _
    | addTag k t =>
      obtain ⟨x, hx⟩ := map_snd_eq_ok hrun
      rcases addTag_eq_ok hx with rfl | ⟨e, -, -, n, -, rfl⟩
      · exact h
      · exact h.indexTag k t
    | removeTag k t =>
      cases hrun
      rcases removeTag_eq s k t with hs | ⟨e, -, -, hs⟩ <;> rw [hs]
      · exact h
      · exact h.unindexTag k t
    | setValue k v =>
      obtain ⟨x, hx⟩ := map_snd_eq_ok hrun
      rcases setValue_eq_ok hx with rfl | ⟨e, -, n, -, rfl⟩
      · exact h
      · exact h
    | clear =>
      cases hrun
      exact fun p hp => absurd hp List.not_mem_nil
  · exact h

end IndexAscending

/-- Every store a caller reaches keeps the key sets of its index ascending. -/
theorem Reachable.indexAscending {l : Option Nat} {s : EntryStore} (h : Reachable l s) :
    IndexAscending s.byTag := by
  induction h with
  | start => exact fun p hp => absurd hp List.not_mem_nil
  | step w _ _ ih => exact ih.apply w

/-! ### The query -/

section Query

variable {s : EntryStore}

/-- Some entry carries every one of the tags under key `k`. -/
def TaggedAll (s : EntryStore) (ts : List String) (k : Key) : Prop :=
  ∃ e ∈ s.entries, e.key = k ∧ ∀ t ∈ ts, e.hasTag t = true

/-- The keys of the entries carrying every one of the tags, in key order. -/
theorem mem_taggedKeys {ts : List String} {k : Key} :
    k ∈ (s.entries.filter fun e => ts.all e.hasTag).map (·.key) ↔ s.TaggedAll ts k := by
  simp only [List.mem_map, List.mem_filter, List.all_eq_true, TaggedAll]
  constructor
  · rintro ⟨e, ⟨he, hall⟩, rfl⟩
    exact ⟨e, he, rfl, hall⟩
  · rintro ⟨e, he, rfl, hall⟩
    exact ⟨e, ⟨he, hall⟩, rfl⟩

theorem taggedKeys_ascending (hc : s.Consistent) (ts : List String) :
    KeysAscending ((s.entries.filter fun e => ts.all e.hasTag).map (·.key)) :=
  List.pairwise_map.mpr (hc.ascending.filter _)

/-- With no key twice, a key carries each of some tags exactly when one entry carries them
all. -/
theorem taggedAll_iff (hc : s.Consistent) {ts : List String} (hts : ts ≠ []) (k : Key) :
    (∀ t ∈ ts, Carried s.entries t k) ↔ s.TaggedAll ts k := by
  constructor
  · intro hall
    obtain ⟨t₀, ht₀⟩ := List.exists_mem_of_ne_nil ts hts
    obtain ⟨e, he, rfl, -⟩ := hall t₀ ht₀
    exact ⟨e, he, rfl, fun t ht => (carried_key_iff hc.ascending.keys_ne he t).mp (hall t ht)⟩
  · rintro ⟨e, he, rfl, hall⟩ t ht
    exact ⟨e, he, rfl, hall t ht⟩

/-- A tag the index does not hold is carried by no entry. -/
theorem not_carried_of_tagged_eq_none (hc : s.Consistent) {t : String} (h : s.tagged t = none)
    (k : Key) : ¬Carried s.entries t k := by
  have hmem := hc.index.mem t k
  rw [show s.byTag.lookup t = none from h, Option.getD_none] at hmem
  exact fun hk => List.not_mem_nil (hmem.mpr hk)

theorem mem_of_tagged_eq_some (hc : s.Consistent) {t : String} {ks : List Key}
    (h : s.tagged t = some ks) (k : Key) : k ∈ ks ↔ Carried s.entries t k := by
  have hmem := hc.index.mem t k
  rwa [show s.byTag.lookup t = some ks from h, Option.getD_some] at hmem

/-- The key sets looked up for some tags hold a key together exactly when each tag is carried
under it. -/
theorem mem_sets_iff (hc : s.Consistent) {ts : List String} {sets : List (List Key)}
    (h : ts.mapM s.tagged = some sets) (k : Key) :
    (∀ S ∈ sets, k ∈ S) ↔ ∀ t ∈ ts, Carried s.entries t k := by
  constructor
  · intro hall t ht
    obtain ⟨S, hS, htS⟩ := exists_mem_of_mapM_eq_some h t ht
    exact (mem_of_tagged_eq_some hc htS k).mp (hall S hS)
  · intro hall S hS
    obtain ⟨t, ht, htS⟩ := mem_of_mapM_eq_some h S hS
    exact (mem_of_tagged_eq_some hc htS k).mpr (hall t ht)

/-- On a consistent store whose index keeps its key sets ascending, a query by tags lists the
keys of the entries carrying every tag, in key order. -/
theorem keysWithTags_eq (hc : s.Consistent) (ha : IndexAscending s.byTag) (ts : List String) :
    s.keysWithTags ts = (s.entries.filter fun e => ts.all e.hasTag).map (·.key) := by
  unfold keysWithTags
  split
  · -- a tag nobody carries: no entry carries them all
    rename_i hnone
    obtain ⟨t, ht, htn⟩ := exists_eq_none_of_mapM_eq_none hnone
    refine (List.map_eq_nil_iff.mpr (List.filter_eq_nil_iff.mpr fun e he hall => ?_)).symm
    exact not_carried_of_tagged_eq_none hc htn e.key ⟨e, he, rfl, List.all_eq_true.mp hall t ht⟩
  · rename_i sets hsets
    have hperm := List.mergeSort_perm sets fun a b => decide (a.length ≤ b.length)
    split
    · -- no tags: every key
      rename_i hsort
      have hnil : sets = [] := List.Perm.eq_nil (hperm.symm.trans (by rw [hsort]))
      have hts : ts = [] := List.eq_nil_iff_forall_not_mem.mpr fun t ht => by
        obtain ⟨S, hS, -⟩ := exists_mem_of_mapM_eq_some hsets t ht
        exact List.not_mem_nil (hnil ▸ hS)
      subst hts
      simp [keys]
    · -- the smallest set, filtered by the others
      rename_i smallest rest hsort
      have hmem : ∀ S, S ∈ smallest :: rest ↔ S ∈ sets := fun S => by rw [← hsort]; exact hperm.mem_iff
      obtain ⟨t, -, htS⟩ := mem_of_mapM_eq_some hsets smallest ((hmem smallest).mp List.mem_cons_self)
      have hts : ts ≠ [] := fun hnil => by
        subst hnil
        simp only [List.mapM_nil, Option.pure_def, Option.some.injEq] at hsets
        subst hsets
        exact List.not_mem_nil ((hmem smallest).mp List.mem_cons_self)
      refine KeysAscending.eq ((ha _ (mem_of_lookup_eq_some htS)).filter _)
        (taggedKeys_ascending hc ts) fun k => ?_
      rw [mem_taggedKeys, ← taggedAll_iff hc hts, ← mem_sets_iff hc hsets, List.mem_filter,
        List.all_eq_true]
      simp only [List.contains_iff_mem]
      constructor
      · rintro ⟨hk, hrest⟩ S hS
        rcases List.mem_cons.mp ((hmem S).mpr hS) with rfl | hS
        · exact hk
        · exact hrest S hS
      · intro hall
        exact ⟨hall _ ((hmem _).mp List.mem_cons_self),
          fun S hS => hall S ((hmem S).mp (List.mem_cons_of_mem _ hS))⟩

/-- An entry of the store is the one found under its key. -/
theorem get?_eq_some_iff (hc : s.Consistent) {e : Entry} : s.get? e.key = some e ↔ e ∈ s.entries :=
  ⟨fun h => (get?_key h).1, find?_key_of_mem hc.ascending.keys_ne⟩

/-- The entries a query by tags lists are those carrying every tag, in key order. -/
theorem query_eq (hc : s.Consistent) (ha : IndexAscending s.byTag) (ts : List String) :
    s.query ts = s.entries.filter fun e => ts.all e.hasTag := by
  rw [query, keysWithTags_eq hc ha, List.filterMap_map]
  conv_rhs => rw [← List.filterMap_some (l := s.entries.filter _)]
  exact List.filterMap_congr fun e he =>
    (get?_eq_some_iff hc).mpr (List.mem_filter.mp he).1

/-- The first entry a query by tags lists carries every tag and has the least key of those
that do. -/
theorem head?_query_eq_some (hc : s.Consistent) (ha : IndexAscending s.byTag)
    (ts : List String) (e : Entry) :
    (s.query ts).head? = some e ↔ s.get? e.key = some e ∧ (∀ t ∈ ts, e.hasTag t = true) ∧
      ∀ e' ∈ s.entries, (∀ t ∈ ts, e'.hasTag t = true) → Key.compare e.key e'.key ≠ .gt := by
  have hsorted : (s.entries.filter fun e => ts.all e.hasTag).Pairwise
      fun a b => Key.compare a.key b.key = .lt := hc.ascending.filter _
  rw [query_eq hc ha, get?_eq_some_iff hc, List.head?_eq_some_iff]
  constructor
  · rintro ⟨rest, hl⟩
    have he : e ∈ s.entries.filter fun e => ts.all e.hasTag := hl ▸ List.mem_cons_self
    obtain ⟨he, hall⟩ := List.mem_filter.mp he
    refine ⟨he, List.all_eq_true.mp hall, fun e' he' hall' hgt => ?_⟩
    -- every other entry carrying the tags comes after the first
    have he'l : e' ∈ e :: rest := hl ▸ List.mem_filter.mpr ⟨he', List.all_eq_true.mpr hall'⟩
    rw [hl] at hsorted
    rcases List.mem_cons.mp he'l with rfl | he'r
    · rw [Key.compare_self] at hgt
      cases hgt
    · rw [(List.pairwise_cons.mp hsorted).1 e' he'r] at hgt
      cases hgt
  · rintro ⟨he, hall, hleast⟩
    have hel : e ∈ s.entries.filter fun e => ts.all e.hasTag :=
      List.mem_filter.mpr ⟨he, List.all_eq_true.mpr hall⟩
    obtain ⟨x, rest, hl⟩ := List.exists_cons_of_ne_nil (List.ne_nil_of_mem hel)
    refine ⟨rest, ?_⟩
    rw [hl] at hel hsorted ⊢
    -- the first entry is `e`: were it another, it would come before `e`
    rcases List.mem_cons.mp hel with rfl | her
    · rfl
    · have hxe := (List.pairwise_cons.mp hsorted).1 e her
      have hx : x ∈ s.entries.filter fun e => ts.all e.hasTag := hl ▸ List.mem_cons_self
      obtain ⟨hxs, hxall⟩ := List.mem_filter.mp hx
      exact absurd (Std.OrientedCmp.gt_iff_lt.mpr hxe) (hleast x hxs (List.all_eq_true.mp hxall))

/-- The keys of a query by tags are those under which an entry carries every tag. -/
theorem mem_keysWithTags (hc : s.Consistent) (ha : IndexAscending s.byTag) (ts : List String)
    (k : Key) :
    k ∈ s.keysWithTags ts ↔ ∃ e, s.get? k = some e ∧ ∀ t ∈ ts, e.hasTag t = true := by
  rw [keysWithTags_eq hc ha, mem_taggedKeys]
  constructor
  · rintro ⟨e, he, rfl, hall⟩
    exact ⟨e, (get?_eq_some_iff hc).mpr he, hall⟩
  · rintro ⟨e, hget, hall⟩
    obtain ⟨he, rfl⟩ := get?_key hget
    exact ⟨e, he, rfl, hall⟩

end Query

end EntryStore

open EntryStore in
/-- A query by tags on a reachable store. Whatever the writes made and whatever the tags asked
for (none, or some repeated), the keys listed are, strictly ascending, exactly the keys whose
entries carry every tag, and every key when no tag is asked for; the entries listed are those
entries in the same order; and the first of them, which a lookup of one entry by tags returns, is
the entry with the least key among those carrying every tag. -/
theorem tag_query_lists_tagged {l : Option Nat} {s : EntryStore} (h : Reachable l s)
    (ts : List String) :
    s.keysWithTags ts = (s.entries.filter fun e => ts.all e.hasTag).map (·.key) ∧
      (s.keysWithTags ts).Pairwise (fun a b => Key.compare a b = .lt) ∧
      (∀ k, k ∈ s.keysWithTags ts ↔ ∃ e, s.get? k = some e ∧ ∀ t ∈ ts, e.hasTag t = true) ∧
      (ts = [] → s.keysWithTags ts = s.keys) ∧
      s.query ts = s.entries.filter (fun e => ts.all e.hasTag) ∧
      ∀ e, (s.query ts).head? = some e ↔ s.get? e.key = some e ∧
        (∀ t ∈ ts, e.hasTag t = true) ∧
        ∀ e' ∈ s.entries, (∀ t ∈ ts, e'.hasTag t = true) → Key.compare e.key e'.key ≠ .gt := by
  have hc := h.consistent.1
  have ha := h.indexAscending
  have heq := keysWithTags_eq hc ha ts
  refine ⟨heq, heq ▸ taggedKeys_ascending hc ts, mem_keysWithTags hc ha ts, fun hnil => ?_,
    query_eq hc ha ts, head?_query_eq_some hc ha ts⟩
  subst hnil
  simp [heq, keys]

open EntryStore in
/-- Three entries tagged `a` and `b`, `a`, and `b`: only the first carries both. -/
theorem tag_query_lists_tagged_intersection :
    let s := (Write.insert ⟨⟨1, 3, 0⟩, ⟨["b"]⟩, []⟩).apply
      ((Write.insert ⟨⟨1, 2, 0⟩, ⟨["a"]⟩, []⟩).apply
        ((Write.insert ⟨⟨1, 1, 0⟩, ⟨["a", "b"]⟩, []⟩).apply (withLimit none)))
    Reachable none s ∧
      s.keysWithTags ["a", "b"] =
        (s.entries.filter fun e => ["a", "b"].all e.hasTag).map (·.key) ∧
      (s.keysWithTags ["a", "b"]).Pairwise (fun a b => Key.compare a b = .lt) ∧
      (∀ k, k ∈ s.keysWithTags ["a", "b"] ↔
        ∃ e, s.get? k = some e ∧ ∀ t ∈ ["a", "b"], e.hasTag t = true) ∧
      (["a", "b"] = [] → s.keysWithTags ["a", "b"] = s.keys) ∧
      s.query ["a", "b"] = s.entries.filter (fun e => ["a", "b"].all e.hasTag) ∧
      ∀ e, (s.query ["a", "b"]).head? = some e ↔ s.get? e.key = some e ∧
        (∀ t ∈ ["a", "b"], e.hasTag t = true) ∧
        ∀ e' ∈ s.entries, (∀ t ∈ ["a", "b"], e'.hasTag t = true) →
          Key.compare e.key e'.key ≠ .gt := by
  intro s
  have h : Reachable none s := .step _ (by decide) (.step _ (by decide) (.step _ (by decide) .start))
  exact ⟨h, tag_query_lists_tagged h ["a", "b"]⟩

end ShardStore
