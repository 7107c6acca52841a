import Mathlib
import ShardStore.Proofs.TagSet
import ShardStore.Proofs.Shard.Ownership
/-!
How the writes of an entry store change its entry list and its tag index.

Keys compare lexicographically by three words, each totally ordered, so the key order is total.
On a key-ascending list a key names at most one entry, and `put` either slots a new entry in or
replaces the one under its key; `modify` changes the first entry under a key, which on such a
list is the only one. An entry's binary length is fixed bytes, its value, and eight bytes plus
the length of each tag: a new tag adds exactly eight bytes and its length, and on a tag set,
where no tag is there twice, removing a tag gives exactly those back.

The tag index is an association list from tags to key lists, and every change to it goes through
`alterTag`, which changes the keys of one tag and drops the tag when they run out. `Indexes idx C`
says that the index holds under each tag `t` exactly the keys `k` with `C t k`, with no empty set
and no tag twice; each change of the index moves `C` by one tag and one key.
-/

namespace ShardStore

namespace Key

instance : Std.TransCmp Key.compare :=
  inferInstanceAs (Std.TransCmp (compareLex (compareOn Key.info)
    (compareLex (compareOn Key.b) (compareOn Key.c))))

instance : Std.LawfulEqCmp Key.compare where
  eq_of_compare {x y} h := by
    obtain ⟨hi, hb, hc⟩ : x.info = y.info ∧ x.b = y.b ∧ x.c = y.c := by
      simpa [Key.compare, Std.compare_eq_iff_eq] using h
    cases x; cases y
    simp_all

theorem compare_self (k : Key) : Key.compare k k = .eq := Std.ReflCmp.compare_self

theorem compare_self_ne_lt (k : Key) : Key.compare k k ≠ .lt := by
  rw [compare_self]; exact nofun

end Key

namespace Entry

theorem hasTag_iff {e : Entry} {t : String} : e.hasTag t = true ↔ t ∈ e.tags.toList := by
  simp [hasTag, TagSet.contains]

theorem foldl_tagBytes (l : List String) (a : Nat) :
    l.foldl (fun n t => n + 8 + t.utf8ByteSize) a = a + (l.map fun t => 8 + t.utf8ByteSize).sum := by
  induction l generalizing a with
  | nil => simp
  | cons t ts ih => simp only [List.foldl_cons, ih, List.map_cons, List.sum_cons]; omega

/-- The binary length of an entry: fixed bytes, the value, and eight bytes and the text of each
tag. -/
theorem size_eq (e : Entry) :
    e.size = 40 + e.value.length + (e.tags.toList.map fun t => 8 + t.utf8ByteSize).sum := by
  rw [size, foldl_tagBytes]; omega

theorem size_addTag {e : Entry} {t : String} (h : e.hasTag t = false) :
    (e.addTag t).1.size = e.size + (8 + t.utf8ByteSize) := by
  have ht : t ∉ e.tags.toList := fun hm => by rw [hasTag_iff.mpr hm] at h; cases h
  rw [size_eq, size_eq]
  simp only [addTag, TagSet.insert]
  rw [List.Perm.sum_nat ((TagSet.perm_insertSorted ht).map _), List.map_cons, List.sum_cons]
  omega

theorem size_removeTag {e : Entry} {t : String} (ha : e.tags.Ascending) (h : e.hasTag t = true) :
    (e.removeTag t).1.size + (8 + t.utf8ByteSize) = e.size := by
  have hnd : e.tags.toList.Nodup := by
    refine List.Pairwise.imp ?_ ha
    intro a b hlt heq
    exact String.lt_irrefl a (heq ▸ hlt)
  -- the filter leaves out the one copy of `t`
  have herase : e.tags.toList.filter (· ≠ t) = e.tags.toList.erase t := by
    rw [hnd.erase_eq_filter]
    refine List.filter_congr fun x _ => ?_
    by_cases hx : x = t <;> simp [hx]
  have hperm := List.perm_cons_erase (hasTag_iff.mp h)
  rw [size_eq, size_eq]
  simp only [removeTag, TagSet.erase, herase]
  rw [List.Perm.sum_nat (hperm.map _), List.map_cons, List.sum_cons]
  omega

theorem size_setValue (e : Entry) (v : Bytes) :
    ({ e with value := v } : Entry).size + e.value.length = e.size + v.length := by
  rw [size_eq, size_eq]
  dsimp only
  omega

/-- A merge keeps every tag of the entry merged into. -/
theorem hasTag_merge {old e : Entry} {u : String} (h : old.hasTag u = true) :
    (old.merge e).1.hasTag u = true := by
  unfold merge
  split
  · exact h
  · simp only [hasTag_iff, TagSet.insert, TagSet.mem_insertSorted, TagSet.union,
      TagSet.mem_foldl_insert] at h ⊢
    exact .inr (.inl h)

theorem hasTag_addTag {e : Entry} {t u : String} :
    (e.addTag t).1.hasTag u = true ↔ u = t ∨ e.hasTag u = true := by
  simp only [hasTag_iff, addTag, TagSet.insert, TagSet.mem_insertSorted]

theorem hasTag_removeTag {e : Entry} {t u : String} :
    (e.removeTag t).1.hasTag u = true ↔ u ≠ t ∧ e.hasTag u = true := by
  simp only [hasTag_iff, removeTag, TagSet.erase, List.mem_filter, decide_eq_true_eq]
  exact and_comm

theorem key_merge (old e : Entry) : (old.merge e).1.key = old.key := by
  unfold merge; split <;> rfl

theorem ascending_merge {old : Entry} (h : old.tags.Ascending) (e : Entry) :
    (old.merge e).1.tags.Ascending := by
  unfold merge
  split
  · exact h
  · exact TagSet.ascending_insert (TagSet.ascending_union h _) _

end Entry

namespace EntryStore

/-! ### The entry list -/

/-- Entries strictly ascending by key. -/
def KeyAscending (es : List Entry) : Prop := es.Pairwise fun a b => Key.compare a.key b.key = .lt

theorem KeyAscending.keys_ne {es : List Entry} (h : KeyAscending es) :
    es.Pairwise fun a b => a.key ≠ b.key := by
  refine List.Pairwise.imp ?_ h
  intro a b hlt heq
  exact Key.compare_self_ne_lt _ (heq ▸ hlt)

theorem get?_none {s : EntryStore} {k : Key} (h : s.get? k = none) : ∀ d ∈ s.entries, d.key ≠ k := by
  unfold get? at h
  simpa using h

/-- Under a key no entry has, `put` slots the entry in. -/
theorem put_perm {e : Entry} :
    ∀ {es : List Entry}, (∀ d ∈ es, d.key ≠ e.key) → List.Perm (put e es) (e :: es)
  | [], _ => .refl _
  | d :: ds, h => by
    unfold put
    split
    · exact .refl _
    · rename_i heq
      exact absurd (Std.LawfulEqCmp.eq_of_compare heq).symm (h d List.mem_cons_self)
    · exact ((put_perm fun c hc => h c (List.mem_cons_of_mem _ hc)).cons d).trans (.swap e d ds)

/-- On a key-ascending list, `put` replaces the entry under its key if there is one. -/
theorem put_eq_modify {e : Entry} :
    ∀ {es : List Entry}, KeyAscending es → (∃ d ∈ es, d.key = e.key) →
      put e es = modify e.key (fun _ => e) es
  | [], _, ⟨_, hd, _⟩ => nomatch hd
  | d :: ds, hs, ⟨c, hc, hk⟩ => by
    obtain ⟨hd, hds⟩ := List.pairwise_cons.mp hs
    unfold put modify
    split
    · -- `e` below `d` cannot be: `c`, at or after `d`, has the key of `e`
      rename_i hlt
      exfalso
      rcases List.mem_cons.mp hc with rfl | hc
      · rw [hk] at hlt; exact Key.compare_self_ne_lt _ hlt
      · have hdc := hd c hc
        rw [hk, ← Std.OrientedCmp.gt_iff_lt, hlt] at hdc
        cases hdc
    · rename_i heq
      rw [if_pos (Std.LawfulEqCmp.eq_of_compare heq).symm]
    · rename_i hgt
      have hne : d.key ≠ e.key := fun h => by
        rw [h, Key.compare_self] at hgt; cases hgt
      rw [if_neg hne, put_eq_modify hds ⟨c, ?_, hk⟩]
      rcases List.mem_cons.mp hc with rfl | hc
      · exact absurd hk hne
      · exact hc

theorem ascending_put (e : Entry) : ∀ {es : List Entry}, KeyAscending es → KeyAscending (put e es)
  | [], _ => List.pairwise_singleton _ _
  | d :: ds, hs => by
    obtain ⟨hd, hds⟩ := List.pairwise_cons.mp hs
    unfold put
    split
    · rename_i hlt
      refine List.pairwise_cons.mpr ⟨fun c hc => ?_, hs⟩
      rcases List.mem_cons.mp hc with rfl | hc
      · exact hlt
      · exact Std.TransCmp.lt_trans hlt (hd c hc)
    · rename_i heq
      have hed : e.key = d.key := Std.LawfulEqCmp.eq_of_compare heq
      exact List.pairwise_cons.mpr ⟨fun c hc => hed ▸ hd c hc, hds⟩
    · rename_i hgt
      refine List.pairwise_cons.mpr ⟨fun c hc => ?_, ascending_put e hds⟩
      rcases mem_put hc with rfl | hc
      · exact Std.OrientedCmp.gt_iff_lt.mp hgt
      · exact hd c hc

section Modify

variable {k : Key} {f : Entry → Entry}

/-- `modify` keeps the keys when the change keeps the key it is made under. -/
theorem keys_modify (hf : ∀ d, d.key = k → (f d).key = k) :
    ∀ es : List Entry, (modify k f es).map (·.key) = es.map (·.key)
  | [] => rfl
  | d :: ds => by
    unfold modify
    split
    · rename_i hk
      simp [hf d hk, hk]
    · simp [keys_modify hf ds]

theorem ascending_modify (hf : ∀ d, d.key = k → (f d).key = k) {es : List Entry}
    (hs : KeyAscending es) : KeyAscending (modify k f es) := by
  unfold KeyAscending at hs ⊢
  have hkeys : (es.map (·.key)).Pairwise fun a b => Key.compare a b = .lt := List.pairwise_map.mpr hs
  rw [← keys_modify hf es] at hkeys
  exact List.pairwise_map.mp hkeys

/-- With no key twice, `modify` changes exactly the entry under its key. -/
theorem mem_modify {d : Entry} :
    ∀ {es : List Entry}, es.Pairwise (fun a b => a.key ≠ b.key) →
      (d ∈ modify k f es ↔ (∃ c ∈ es, c.key = k ∧ d = f c) ∨ (d ∈ es ∧ d.key ≠ k))
  | [], _ => by simp [modify]
  | c :: cs, hu => by
    obtain ⟨hc, hcs⟩ := List.pairwise_cons.mp hu
    unfold modify
    split
    · -- `c` is the entry under `k`, so no other is
      rename_i hk
      have hrest : ∀ c' ∈ cs, c'.key ≠ k := fun c' hc' => hk ▸ (hc c' hc').symm
      simp only [List.mem_cons, exists_eq_or_imp, hk, true_and]
      constructor
      · rintro (rfl | h)
        · exact .inl (.inl rfl)
        · exact .inr ⟨.inr h, hrest d h⟩
      · rintro ((rfl | ⟨c', hc', hk', -⟩) | ⟨rfl | h, hne⟩)
        · exact .inl rfl
        · exact absurd hk' (hrest c' hc')
        · exact absurd hk hne
        · exact .inr h
    · rename_i hk
      rw [List.mem_cons, mem_modify hcs]
      simp only [List.mem_cons, exists_eq_or_imp]
      constructor
      · rintro (rfl | h | ⟨h, hne⟩)
        · exact .inr ⟨.inl rfl, hk⟩
        · exact .inl (.inr h)
        · exact .inr ⟨.inr h, hne⟩
      · rintro ((⟨hk', -⟩ | h) | ⟨rfl | h, hne⟩)
        · exact absurd hk' hk
        · exact .inr (.inl h)
        · exact .inl rfl
        · exact .inr (.inr ⟨h, hne⟩)

/-- A function summed over the entries changes by its change on the entry `modify` changes. -/
theorem sum_modify {c : Entry} (g : Entry → Nat) :
    ∀ {es : List Entry}, es.find? (·.key = k) = some c →
      ((modify k f es).map g).sum + g c = (es.map g).sum + g (f c)
  | [], h => nomatch h
  | d :: ds, h => by
    unfold modify
    rw [List.find?_cons] at h
    split
    · rename_i hk
      simp only [hk, decide_true, Option.some.injEq] at h
      subst h
      simp only [List.map_cons, List.sum_cons]
      omega
    · rename_i hk
      simp only [hk, decide_false] at h
      simp only [List.map_cons, List.sum_cons]
      have := sum_modify g h
      omega

end Modify

theorem le_sum_of_mem {c : Entry} {es : List Entry} (g : Entry → Nat) (hc : c ∈ es) :
    g c ≤ (es.map g).sum := by
  rw [List.Perm.sum_nat ((List.perm_cons_erase hc).map g), List.map_cons, List.sum_cons]
  omega

/-! ### Which entries carry a tag -/

/-- Some entry under `k` carries `t`. -/
def Carried (es : List Entry) (t : String) (k : Key) : Prop := ∃ e ∈ es, e.key = k ∧ e.hasTag t

/-- With no key twice, two entries under one key are one entry. -/
theorem eq_of_key_eq {a b : Entry} :
    ∀ {es : List Entry}, es.Pairwise (fun a b => a.key ≠ b.key) →
      a ∈ es → b ∈ es → a.key = b.key → a = b
  | _, hu, ha, hb, hk => List.inj_on_of_nodup_map (List.pairwise_map.mpr hu) ha hb hk

/-- With no key twice, the tags under a key after `modify` are those of the changed entry, and
under the other keys they are as they were. -/
theorem carried_modify {k : Key} {f : Entry → Entry} (hf : ∀ d, d.key = k → (f d).key = k)
    {es : List Entry} (hu : es.Pairwise (fun a b => a.key ≠ b.key)) {c : Entry} (hc : c ∈ es)
    (hck : c.key = k) (t : String) (j : Key) :
    Carried (modify k f es) t j ↔ if j = k then (f c).hasTag t = true else Carried es t j := by
  unfold Carried
  constructor
  · rintro ⟨d, hd, hdj, hdt⟩
    rcases (mem_modify hu).mp hd with ⟨c', hc', hck', rfl⟩ | ⟨hd, hdk⟩
    · obtain rfl := eq_of_key_eq hu hc' hc (hck'.trans hck.symm)
      rw [if_pos (hdj.symm.trans (hf c' hck'))]
      exact hdt
    · rw [if_neg (hdj ▸ hdk)]
      exact ⟨d, hd, hdj, hdt⟩
  · split
    · rename_i hjk
      subst hjk
      exact fun hct => ⟨f c, (mem_modify hu).mpr (.inl ⟨c, hc, hck, rfl⟩), hf c hck, hct⟩
    · rename_i hjk
      rintro ⟨d, hd, hdj, hdt⟩
      exact ⟨d, (mem_modify hu).mpr (.inr ⟨hd, hdj ▸ hjk⟩), hdj, hdt⟩

/-- With no key twice, the tags under an entry's key are its own. -/
theorem carried_key_iff {es : List Entry} (hu : es.Pairwise (fun a b => a.key ≠ b.key))
    {c : Entry} (hc : c ∈ es) (t : String) : Carried es t c.key ↔ c.hasTag t := by
  constructor
  · rintro ⟨d, hd, hdk, hdt⟩
    rw [← eq_of_key_eq hu hd hc hdk]
    exact hdt
  · exact fun h => ⟨c, hc, rfl, h⟩

/-- An entry slotted in under a new key adds its tags under that key. -/
theorem carried_put_new {e : Entry} {es : List Entry} (hfresh : ∀ d ∈ es, d.key ≠ e.key)
    (t : String) (j : Key) : Carried (put e es) t j ↔ Carried es t j ∨ (e.hasTag t ∧ j = e.key) := by
  unfold Carried
  simp only [(put_perm hfresh).mem_iff, List.mem_cons, exists_eq_or_imp]
  constructor
  · rintro (⟨hk, ht⟩ | h)
    · exact .inr ⟨ht, hk.symm⟩
    · exact .inl h
  · rintro (h | ⟨ht, hk⟩)
    · exact .inr h
    · exact .inl ⟨hk.symm, ht⟩

/-! ### The tag index -/

theorem mem_insertKey {j k : Key} : ∀ {ks : List Key}, j ∈ insertKey k ks ↔ j = k ∨ j ∈ ks
  | [] => by simp [insertKey]
  | i :: is => by
    unfold insertKey
    split
    · exact List.mem_cons
    · rename_i heq
      obtain rfl : k = i := Std.LawfulEqCmp.eq_of_compare heq
      simp
    · rw [List.mem_cons, List.mem_cons, mem_insertKey]
      grind

theorem lookup_eq_none_of_not_mem {idx : List (String × List Key)} {u : String}
    (h : u ∉ idx.map (·.1)) : idx.lookup u = none := by
  rw [List.lookup_eq_none_iff]
  intro p hp
  have hne : u ≠ p.1 := fun heq => h (heq ▸ List.mem_map_of_mem hp)
  simpa [bne] using hne

theorem lookup_cons_of_ne {u v : String} {ks : List Key} {rest : List (String × List Key)}
    (h : u ≠ v) : ((v, ks) :: rest).lookup u = rest.lookup u := by
  have hb : (u == v) = false := by simpa using h
  rw [List.lookup_cons, hb]

section Alter

variable {t : String} {f : List Key → List Key}

theorem keys_alterTag {u : String} :
    ∀ {idx : List (String × List Key)}, u ∈ (alterTag t f idx).map (·.1) → u = t ∨ u ∈ idx.map (·.1)
  | [], hu => by
    unfold alterTag at hu
    split at hu <;> simp_all
  | (v, ks) :: rest, hu => by
    unfold alterTag at hu
    split at hu
    · split at hu
      · exact .inr (List.mem_cons_of_mem _ hu)
      · simp only [List.map_cons, List.mem_cons] at hu ⊢
        exact .inr hu
    · simp only [List.map_cons, List.mem_cons] at hu ⊢
      rcases hu with hu | hu
      · exact .inr (.inl hu)
      · rcases keys_alterTag hu with hu | hu
        · exact .inl hu
        · exact .inr (.inr hu)

theorem nodup_alterTag :
    ∀ {idx : List (String × List Key)}, (idx.map (·.1)).Nodup → ((alterTag t f idx).map (·.1)).Nodup
  | [], _ => by
    unfold alterTag
    split <;> simp
  | (v, ks) :: rest, h => by
    simp only [List.map_cons, List.nodup_cons] at h
    obtain ⟨hv, hrest⟩ := h
    unfold alterTag
    split
    · split
      · exact hrest
      · exact List.nodup_cons.mpr ⟨hv, hrest⟩
    · rename_i hvt
      refine List.nodup_cons.mpr ⟨fun hm => ?_, nodup_alterTag hrest⟩
      rcases keys_alterTag hm with h | h
      · exact hvt h
      · exact hv h

theorem nonempty_alterTag :
    ∀ {idx : List (String × List Key)}, (∀ p ∈ idx, p.2 ≠ []) → ∀ p ∈ alterTag t f idx, p.2 ≠ []
  | [], _ => by
    unfold alterTag
    split <;> simp_all
  | (v, ks) :: rest, h => by
    have hrest : ∀ p ∈ rest, p.2 ≠ [] := fun p hp => h p (List.mem_cons_of_mem _ hp)
    unfold alterTag
    split
    · split
      · exact hrest
      · rename_i hne
        intro p hp
        rcases List.mem_cons.mp hp with rfl | hp
        · exact hne
        · exact hrest p hp
    · intro p hp
      rcases List.mem_cons.mp hp with rfl | hp
      · exact h _ List.mem_cons_self
      · exact nonempty_alterTag hrest p hp

/-- After `alterTag t f`, the index holds `f` of the old keys under `t`, and the same keys under
every other tag. -/
theorem lookup_alterTag {u : String} :
    ∀ {idx : List (String × List Key)}, (idx.map (·.1)).Nodup →
      ((alterTag t f idx).lookup u).getD [] =
        if u = t then f ((idx.lookup t).getD []) else (idx.lookup u).getD []
  | [], _ => by
    unfold alterTag
    by_cases hu : u = t
    · subst hu
      split <;> simp_all
    · rw [if_neg hu]
      split
      · rfl
      · rw [lookup_cons_of_ne hu]
  | (v, ks) :: rest, h => by
    simp only [List.map_cons, List.nodup_cons] at h
    obtain ⟨hv, hrest⟩ := h
    unfold alterTag
    by_cases hvt : v = t
    · -- the tag's pair is the first one, and no other pair has the tag
      subst hvt
      have hnone : rest.lookup v = none := lookup_eq_none_of_not_mem hv
      rw [if_pos rfl]
      by_cases hu : u = v
      · subst hu
        rw [if_pos rfl, List.lookup_cons_self]
        split
        · rename_i hks
          rw [hnone, Option.getD_some, hks]; rfl
        · rw [List.lookup_cons_self]; rfl
      · rw [if_neg hu, lookup_cons_of_ne hu]
        split
        · rfl
        · rw [lookup_cons_of_ne hu]
    · rw [if_neg hvt]
      by_cases hu : u = v
      · subst hu
        rw [if_neg hvt, List.lookup_cons_self, List.lookup_cons_self]
      · simp only [lookup_cons_of_ne hu, lookup_cons_of_ne (Ne.symm hvt)]
        exact lookup_alterTag hrest

end Alter

/-- The index holds under each tag `t` exactly the keys `k` with `C t k`, holds no empty set, and
holds no tag twice. -/
structure Indexes (idx : List (String × List Key)) (C : String → Key → Prop) : Prop where
  mem : ∀ t k, k ∈ (idx.lookup t).getD [] ↔ C t k
  nonempty : ∀ p ∈ idx, p.2 ≠ []
  nodup : (idx.map (·.1)).Nodup

namespace Indexes

variable {idx : List (String × List Key)} {C : String → Key → Prop}

theorem congr (h : Indexes idx C) {C' : String → Key → Prop} (hC : ∀ t k, C t k ↔ C' t k) :
    Indexes idx C' :=
  ⟨fun t k => (h.mem t k).trans (hC t k), h.nonempty, h.nodup⟩

theorem nil : Indexes [] fun _ _ => False := ⟨by simp, by simp, by simp⟩

/-- Changing the keys of one tag changes what the index holds under that tag only. -/
theorem alterTag (h : Indexes idx C) {t : String} {f : List Key → List Key}
    {C' : String → Key → Prop} (ht : ∀ k, k ∈ f ((idx.lookup t).getD []) ↔ C' t k)
    (hu : ∀ u, u ≠ t → ∀ k, C' u k ↔ C u k) : Indexes (alterTag t f idx) C' := by
  refine ⟨fun u k => ?_, nonempty_alterTag h.nonempty, nodup_alterTag h.nodup⟩
  rw [lookup_alterTag h.nodup]
  split
  · rename_i hut
    subst hut
    exact ht k
  · rename_i hut
    exact (h.mem u k).trans (hu u hut k).symm

theorem indexTag (h : Indexes idx C) (j : Key) (t : String) :
    Indexes (indexTag j t idx) fun u k => C u k ∨ (u = t ∧ k = j) :=
  h.alterTag (fun k => by rw [mem_insertKey, h.mem]; simp [or_comm]) fun u hut k => by simp [hut]

theorem unindexTag (h : Indexes idx C) (j : Key) (t : String) :
    Indexes (unindexTag j t idx) fun u k => C u k ∧ ¬(u = t ∧ k = j) :=
  h.alterTag (fun k => by rw [List.mem_filter, h.mem]; simp) fun u hut k => by simp [hut]

/-- Indexing a key under tags one by one adds the key under each of them. -/
theorem foldl_indexTag (j : Key) :
    ∀ (ts : List String) {idx : List (String × List Key)} {C : String → Key → Prop},
      Indexes idx C →
        Indexes (ts.foldl (fun idx t => EntryStore.indexTag j t idx) idx)
          fun u k => C u k ∨ (u ∈ ts ∧ k = j)
  | [], _, _, h => h.congr fun u k => by simp
  | t :: ts, _, _, h => (foldl_indexTag j ts (h.indexTag j t)).congr fun u k => by
    simp only [List.mem_cons]
    grind

/-- Indexing an entry adds its key under each of its tags. -/
theorem indexTags (h : Indexes idx C) (e : Entry) :
    Indexes (EntryStore.indexTags e idx) fun u k => C u k ∨ (e.hasTag u ∧ k = e.key) :=
  (foldl_indexTag e.key e.tags.toList h).congr fun u k => by rw [Entry.hasTag_iff]

end Indexes

end EntryStore

end ShardStore
