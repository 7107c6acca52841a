import ShardStore.Proofs.Store.Layout
import ShardStore.Proofs.Wire.RoundTrip
/-!
The byte count and the tag index of an entry store stay exact.

A caller starts from an empty store with a limit and makes writes: inserts, tag additions and
removals, value replacements and clears. A write the store refuses leaves the store as it was.
Whatever the writes, the store stays `Consistent`: its entries are ascending by key and carry tag
sets, its count is the sum of their binary lengths and within the limit, and its index holds
under each tag exactly the keys whose entries carry it. Each write keeps this: each charges the
change it makes to the binary lengths (a fresh entry, a merge that replaces one length by
another, a tag added or removed, a value replaced) and indexes what it adds and unindexes what it
removes. A refusal is always `outOfSpace`, and reports the store's own count and limit.
-/

namespace ShardStore

namespace EntryStore

/-- A write a caller makes on a store. -/
inductive Write where
  | insert (e : Entry)
  | addTag (k : Key) (t : String)
  | removeTag (k : Key) (t : String)
  | setValue (k : Key) (v : Bytes)
  | clear

namespace Write

/-- The store a write leaves, or the fault that refused it. -/
def run : Write → EntryStore → Outcome EntryStore
  | .insert e, s => (·.2) <$> s.insert e
  | .addTag k t, s => (·.2) <$> s.addTag k t
  | .removeTag k t, s => .ok (s.removeTag k t).2
  | .setValue k v, s => (·.2) <$> s.setValue k v
  | .clear, s => .ok s.clear

/-- The store after a write: a refused write keeps the store it was made on. -/
def apply (w : Write) (s : EntryStore) : EntryStore :=
  match w.run s with
  | .ok s' => s'
  | .error _ => s

/-- An inserted entry comes with its tags as a set. -/
def TagsAscending : Write → Prop
  | .insert e => e.tags.Ascending
  | _ => True

instance : DecidablePred TagsAscending := fun w =>
  match w with
  | .insert e => inferInstanceAs (Decidable e.tags.Ascending)
  | .addTag .. | .removeTag .. | .setValue .. | .clear => isTrue trivial

end Write

/-- The stores a caller reaches from an empty store with a limit, one write at a time. -/
inductive Reachable (limit : Option Nat) : EntryStore → Prop
  | start : Reachable limit (withLimit limit)
  | step {s : EntryStore} (w : Write) : w.TagsAscending → Reachable limit s →
      Reachable limit (w.apply s)

/-- What every reachable store satisfies. -/
structure Consistent (s : EntryStore) : Prop where
  ascending : KeyAscending s.entries
  tags : ∀ e ∈ s.entries, e.tags.Ascending
  used : s.used = (s.entries.map Entry.size).sum
  within : ∀ L, s.limit = some L → s.used ≤ L
  index : Indexes s.byTag (Carried s.entries)

/-! ### The budget check -/

theorem reserve_eq_ok {s : EntryStore} {g r n : Nat} (h : s.reserve g r = .ok n) :
    n = s.used - r + g ∧ ∀ L, s.limit = some L → n ≤ L := by
  unfold reserve at h
  split at h
  · rename_i L hL
    dsimp only at h
    split at h
    · cases h
    · rename_i hle
      cases h
      exact ⟨rfl, fun L' hL' => by rw [hL] at hL'; cases hL'; omega⟩
  · rename_i hL
    cases h
    exact ⟨rfl, fun L hL' => by rw [hL] at hL'; cases hL'⟩

/-- The budget check refuses only a store with a limit, and only a change past it. -/
theorem reserve_eq_error {s : EntryStore} {g r : Nat} {f : Fault} (h : s.reserve g r = .error f) :
    ∃ L, s.limit = some L ∧ f = .outOfSpace g s.used L ∧ L < s.used - r + g := by
  unfold reserve at h
  split at h
  · rename_i L hL
    dsimp only at h
    split at h
    · rename_i hgt
      cases h
      exact ⟨L, hL, rfl, hgt⟩
    · cases h
  · cases h

theorem reserve_bind_eq_ok {s : EntryStore} {g r : Nat} {α : Type} {k : Nat → α} {x : α} :
    (s.reserve g r >>= fun n => pure (k n)) = (.ok x : Outcome α) ↔
      ∃ n, s.reserve g r = .ok n ∧ k n = x := by
  cases s.reserve g r <;> simp [bind, Except.bind, pure, Except.pure]

theorem reserve_bind_eq_error {s : EntryStore} {g r : Nat} {α : Type} {k : Nat → α} {f : Fault} :
    (s.reserve g r >>= fun n => pure (k n)) = (.error f : Outcome α) ↔
      s.reserve g r = .error f := by
  cases s.reserve g r <;> simp [bind, Except.bind, pure, Except.pure]

/-! ### What each write can do -/

section Inversion

variable {s s' : EntryStore} {k : Key} {t : String} {f : Fault}

theorem map_snd_eq_ok {α : Type} {r : Outcome (α × EntryStore)} (h : (·.2) <$> r = .ok s') :
    ∃ x, r = .ok (x, s') := by
  cases r with
  | error f => cases h
  | ok p =>
    cases h
    exact ⟨p.1, rfl⟩

theorem map_snd_eq_error {α : Type} {r : Outcome (α × EntryStore)} (h : (·.2) <$> r = .error f) :
    r = .error f := by
  cases r with
  | error f' => cases h; rfl
  | ok p => cases h

/-- An insert adds the entry under a new key, finds nothing to merge into the entry under its
key, or merges. -/
theorem insert_eq_ok {e : Entry} {x : InsertOutcome} (h : s.insert e = .ok (x, s')) :
    (s.get? e.key = none ∧ ∃ n, s.reserve e.size 0 = .ok n ∧
      s' = { s with entries := put e s.entries, byTag := indexTags e s.byTag, used := n }) ∨
    ((∃ old, s.get? e.key = some old) ∧ s' = s) ∨
    (∃ old, s.get? e.key = some old ∧ ∃ n, s.reserve (old.merge e).1.size old.size = .ok n ∧
      s' = { s with entries := put (old.merge e).1 s.entries,
                    byTag := indexTags (old.merge e).1 s.byTag, used := n }) := by
  unfold EntryStore.insert at h
  split at h
  · rename_i hnone
    obtain ⟨n, hn, hx⟩ := reserve_bind_eq_ok.mp h
    exact .inl ⟨hnone, n, hn, (Prod.mk.inj hx).2.symm⟩
  · rename_i old hold
    split at h
    · cases h
      exact .inr (.inl ⟨⟨old, hold⟩, rfl⟩)
    · rename_i m hm
      obtain ⟨n, hn, hx⟩ := reserve_bind_eq_ok.mp h
      refine .inr (.inr ⟨old, hold, n, ?_, ?_⟩)
      · rw [hm]; exact hn
      · rw [hm]; exact (Prod.mk.inj hx).2.symm

theorem insert_eq_error {e : Entry} (h : s.insert e = .error f) :
    ∃ g r, s.reserve g r = .error f := by
  unfold EntryStore.insert at h
  split at h
  · exact ⟨_, _, reserve_bind_eq_error.mp h⟩
  · split at h
    · cases h
    · exact ⟨_, _, reserve_bind_eq_error.mp h⟩

/-- A tag addition changes nothing, or adds a tag the entry under the key lacks. -/
theorem addTag_eq_ok {x : Bool} (h : s.addTag k t = .ok (x, s')) :
    s' = s ∨ ∃ e, s.get? k = some e ∧ e.hasTag t = false ∧
      ∃ n, s.reserve (8 + t.utf8ByteSize) 0 = .ok n ∧
        s' = { s with entries := modify k (fun d => (d.addTag t).1) s.entries,
                      byTag := indexTag k t s.byTag, used := n } := by
  unfold EntryStore.addTag at h
  split at h
  · cases h
    exact .inl rfl
  · rename_i e he
    split at h
    · cases h
      exact .inl rfl
    · rename_i ht
      obtain ⟨n, hn, hx⟩ := reserve_bind_eq_ok.mp h
      exact .inr ⟨e, he, by simpa using ht, n, hn, (Prod.mk.inj hx).2.symm⟩

theorem addTag_eq_error (h : s.addTag k t = .error f) : ∃ g r, s.reserve g r = .error f := by
  unfold EntryStore.addTag at h
  split at h
  · cases h
  · split at h
    · cases h
    · exact ⟨_, _, reserve_bind_eq_error.mp h⟩

/-- A tag removal changes nothing, or removes a tag the entry under the key has. -/
theorem removeTag_eq (s : EntryStore) (k : Key) (t : String) :
    (s.removeTag k t).2 = s ∨ ∃ e, s.get? k = some e ∧ e.hasTag t = true ∧
      (s.removeTag k t).2 =
        { s with entries := modify k (fun d => (d.removeTag t).1) s.entries,
                 byTag := unindexTag k t s.byTag, used := s.used - (8 + t.utf8ByteSize) } := by
  unfold EntryStore.removeTag
  split
  · rename_i e he
    split
    · rename_i ht
      exact .inr ⟨e, he, ht, rfl⟩
    · exact .inl rfl
  · exact .inl rfl

/-- A value replacement changes nothing, or replaces the value under the key. -/
theorem setValue_eq_ok {v : Bytes} {x : Bool} (h : s.setValue k v = .ok (x, s')) :
    s' = s ∨ ∃ e, s.get? k = some e ∧ ∃ n, s.reserve v.length e.value.length = .ok n ∧
      s' = { s with entries := modify k (fun d => { d with value := v }) s.entries, used := n } := by
  unfold EntryStore.setValue at h
  split at h
  · cases h
    exact .inl rfl
  · rename_i e he
    obtain ⟨n, hn, hx⟩ := reserve_bind_eq_ok.mp h
    exact .inr ⟨e, he, n, hn, (Prod.mk.inj hx).2.symm⟩

theorem setValue_eq_error {v : Bytes} (h : s.setValue k v = .error f) :
    ∃ g r, s.reserve g r = .error f := by
  unfold EntryStore.setValue at h
  split at h
  · cases h
  · exact ⟨_, _, reserve_bind_eq_error.mp h⟩

end Inversion

/-- A refused write is refused for space: the fault reports the store's count and its limit,
which the bytes asked for would pass. -/
theorem Write.run_eq_error {w : Write} {s : EntryStore} {f : Fault} (h : w.run s = .error f) :
    ∃ g L, s.limit = some L ∧ f = .outOfSpace g s.used L ∧ L < s.used + g := by
  obtain ⟨g, r, hr⟩ : ∃ g r, s.reserve g r = .error f := by
    cases w with
    | insert e => exact insert_eq_error (map_snd_eq_error h)
    | addTag k t => exact addTag_eq_error (map_snd_eq_error h)
    | removeTag k t => cases h
    | setValue k v => exact setValue_eq_error (map_snd_eq_error h)
    | clear => cases h
  obtain ⟨L, hL, rfl, hlt⟩ := reserve_eq_error hr
  exact ⟨g, L, hL, rfl, by omega⟩

-- an entry of 62 bytes does not fit beside one of 50 under a limit of 100
example :
    (match (Write.insert ⟨⟨2, 0, 0⟩, ⟨["a"]⟩, List.replicate 13 0⟩).run
        ((Write.insert ⟨⟨1, 0, 0⟩, ⟨["a"]⟩, [7]⟩).apply (withLimit (some 100))) with
      | .error f => some f
      | .ok _ => none) = some (.outOfSpace 62 50 100) := by
  decide

/-! ### Each write keeps the store consistent -/

namespace Consistent

variable {s s' : EntryStore}

theorem withLimit (limit : Option Nat) : (withLimit limit).Consistent where
  ascending := List.Pairwise.nil
  tags := nofun
  used := rfl
  within := fun _ _ => Nat.zero_le _
  index := Indexes.nil.congr fun _ _ => by simp [Carried, EntryStore.withLimit]

theorem clear (s : EntryStore) : s.clear.Consistent where
  ascending := List.Pairwise.nil
  tags := nofun
  used := rfl
  within := fun _ _ => Nat.zero_le _
  index := Indexes.nil.congr fun _ _ => by simp [Carried, EntryStore.clear]

/-- An entry under a new key is charged its length and indexed under its tags. -/
theorem insert_new (hs : s.Consistent) {e : Entry} (he : e.tags.Ascending)
    (hfresh : s.get? e.key = none) {n : Nat} (hn : s.reserve e.size 0 = .ok n) :
    ({ s with entries := put e s.entries, byTag := indexTags e s.byTag, used := n } :
      EntryStore).Consistent := by
  have hfresh' := get?_none hfresh
  have hperm := put_perm hfresh'
  obtain ⟨rfl, hle⟩ := reserve_eq_ok hn
  refine ⟨ascending_put e hs.ascending, fun d hd => ?_, ?_, hle, ?_⟩
  · rcases List.mem_cons.mp (hperm.mem_iff.mp hd) with rfl | hd
    · exact he
    · exact hs.tags d hd
  · show s.used - 0 + e.size = ((put e s.entries).map Entry.size).sum
    rw [List.Perm.sum_nat (hperm.map _), List.map_cons, List.sum_cons, hs.used]
    omega
  · exact (hs.index.indexTags e).congr fun t j => (carried_put_new hfresh' t j).symm

/-- A merge replaces the old entry's length by the merged one's and indexes the merged tags,
which hold the old ones. -/
theorem insert_merged (hs : s.Consistent) {e old m : Entry} (hold : s.get? e.key = some old)
    (hm : (old.merge e).1 = m) {n : Nat} (hn : s.reserve m.size old.size = .ok n) :
    ({ s with entries := put m s.entries, byTag := indexTags m s.byTag, used := n } :
      EntryStore).Consistent := by
  obtain ⟨hmem, hkey⟩ := get?_key hold
  have hu := hs.ascending.keys_ne
  have hmk : m.key = old.key := hm ▸ Entry.key_merge old e
  have hput : put m s.entries = modify m.key (fun _ => m) s.entries :=
    put_eq_modify hs.ascending ⟨old, hmem, hmk.symm⟩
  have hf : ∀ d : Entry, d.key = m.key → m.key = m.key := fun _ _ => rfl
  have hfind : s.entries.find? (·.key = m.key) = some old := by
    rw [hmk, hkey]; exact hold
  obtain ⟨rfl, hle⟩ := reserve_eq_ok hn
  refine ⟨ascending_put m hs.ascending, fun d hd => ?_, ?_, hle, ?_⟩
  · rcases mem_put hd with rfl | hd
    · exact hm ▸ Entry.ascending_merge (hs.tags old hmem) e
    · exact hs.tags d hd
  · -- the count drops the old length and takes the merged one
    have hsum := sum_modify (f := fun _ => m) Entry.size hfind
    have hold_le := le_sum_of_mem Entry.size hmem
    show s.used - old.size + m.size = ((put m s.entries).map Entry.size).sum
    rw [hput, hs.used]
    omega
  · refine (hs.index.indexTags m).congr fun t j => ?_
    rw [hput, carried_modify hf hu hmem hmk.symm]
    by_cases hj : j = m.key
    · -- under the merged key, what the old entry carried the merged one carries too
      subst hj
      rw [if_pos rfl, hmk, carried_key_iff hu hmem]
      constructor
      · rintro (h | ⟨h, -⟩)
        · exact hm ▸ Entry.hasTag_merge h
        · exact h
      · exact fun h => .inr ⟨h, rfl⟩
    · rw [if_neg hj]
      exact ⟨fun h => h.resolve_right fun h' => hj h'.2, .inl⟩

/-- A new tag is charged eight bytes and its length, and its key is indexed under it. -/
theorem addTag_new (hs : s.Consistent) {k : Key} {t : String} {e : Entry}
    (he : s.get? k = some e) (ht : e.hasTag t = false) {n : Nat}
    (hn : s.reserve (8 + t.utf8ByteSize) 0 = .ok n) :
    ({ s with entries := modify k (fun d => (d.addTag t).1) s.entries,
              byTag := indexTag k t s.byTag, used := n } : EntryStore).Consistent := by
  obtain ⟨hmem, hkey⟩ := get?_key he
  have hu := hs.ascending.keys_ne
  have hf : ∀ d : Entry, d.key = k → (d.addTag t).1.key = k := fun _ h => h
  obtain ⟨rfl, hle⟩ := reserve_eq_ok hn
  refine ⟨ascending_modify hf hs.ascending, fun d hd => ?_, ?_, hle, ?_⟩
  · rcases (mem_modify hu).mp hd with ⟨c, hc, -, rfl⟩ | ⟨hd, -⟩
    · exact TagSet.ascending_insert (hs.tags c hc) t
    · exact hs.tags d hd
  · have hsum := sum_modify (f := fun d => (d.addTag t).1) Entry.size he
    have hsize := Entry.size_addTag ht
    show s.used - 0 + (8 + t.utf8ByteSize) =
      ((modify k (fun d => (d.addTag t).1) s.entries).map Entry.size).sum
    rw [hs.used]
    omega
  · refine (hs.index.indexTag k t).congr fun u j => ?_
    rw [carried_modify hf hu hmem hkey]
    by_cases hj : j = k
    · subst hj
      rw [if_pos rfl, Entry.hasTag_addTag, ← hkey, carried_key_iff hu hmem]
      exact ⟨fun h => h.elim .inr fun h' => .inl h'.1, fun h => h.elim (fun h' => .inr ⟨h', rfl⟩) .inl⟩
    · rw [if_neg hj]
      exact ⟨fun h => h.resolve_right fun h' => hj h'.2, .inl⟩

/-- A removed tag gives back eight bytes and its length, and its key leaves the tag's set. -/
theorem removeTag_present (hs : s.Consistent) {k : Key} {t : String} {e : Entry}
    (he : s.get? k = some e) (ht : e.hasTag t = true) :
    ({ s with entries := modify k (fun d => (d.removeTag t).1) s.entries,
              byTag := unindexTag k t s.byTag, used := s.used - (8 + t.utf8ByteSize) } :
      EntryStore).Consistent := by
  obtain ⟨hmem, hkey⟩ := get?_key he
  have hu := hs.ascending.keys_ne
  have hf : ∀ d : Entry, d.key = k → (d.removeTag t).1.key = k := fun _ h => h
  refine ⟨ascending_modify hf hs.ascending, fun d hd => ?_, ?_, fun L hL => ?_, ?_⟩
  · rcases (mem_modify hu).mp hd with ⟨c, hc, -, rfl⟩ | ⟨hd, -⟩
    · exact TagSet.ascending_erase (hs.tags c hc) t
    · exact hs.tags d hd
  · have hsum := sum_modify (f := fun d => (d.removeTag t).1) Entry.size he
    have hsize := Entry.size_removeTag (hs.tags e hmem) ht
    show s.used - (8 + t.utf8ByteSize) =
      ((modify k (fun d => (d.removeTag t).1) s.entries).map Entry.size).sum
    rw [hs.used]
    omega
  · have := hs.within L hL
    show s.used - (8 + t.utf8ByteSize) ≤ L
    omega
  · refine (hs.index.unindexTag k t).congr fun u j => ?_
    rw [carried_modify hf hu hmem hkey]
    by_cases hj : j = k
    · subst hj
      rw [if_pos rfl, Entry.hasTag_removeTag, ← hkey, carried_key_iff hu hmem]
      exact ⟨fun h => ⟨fun hut => h.2 ⟨hut, rfl⟩, h.1⟩, fun h => ⟨h.2, fun h' => h.1 h'.1⟩⟩
    · rw [if_neg hj]
      exact ⟨fun h => h.1, fun h => ⟨h, fun h' => hj h'.2⟩⟩

/-- A new value is charged by the change in value length; the tags stay as they were. -/
theorem setValue_present (hs : s.Consistent) {k : Key} {v : Bytes} {e : Entry}
    (he : s.get? k = some e) {n : Nat} (hn : s.reserve v.length e.value.length = .ok n) :
    ({ s with entries := modify k (fun d => { d with value := v }) s.entries, used := n } :
      EntryStore).Consistent := by
  obtain ⟨hmem, hkey⟩ := get?_key he
  have hu := hs.ascending.keys_ne
  have hf : ∀ d : Entry, d.key = k → ({ d with value := v } : Entry).key = k := fun _ h => h
  obtain ⟨rfl, hle⟩ := reserve_eq_ok hn
  refine ⟨ascending_modify hf hs.ascending, fun d hd => ?_, ?_, hle, ?_⟩
  · rcases (mem_modify hu).mp hd with ⟨c, hc, -, rfl⟩ | ⟨hd, -⟩
    · exact hs.tags c hc
    · exact hs.tags d hd
  · have hsum := sum_modify (f := fun d => { d with value := v }) Entry.size he
    have hsize := Entry.size_setValue e v
    have hvalue : e.value.length ≤ e.size := by rw [Entry.size_eq]; omega
    have hle_sum := le_sum_of_mem Entry.size hmem
    show s.used - e.value.length + v.length =
      ((modify k (fun d => { d with value := v }) s.entries).map Entry.size).sum
    rw [hs.used]
    omega
  · refine hs.index.congr fun u j => ?_
    rw [carried_modify hf hu hmem hkey]
    by_cases hj : j = k
    · subst hj
      rw [if_pos rfl, ← hkey, carried_key_iff hu hmem]
      rfl
    · rw [if_neg hj]

/-- A write that goes through keeps the store consistent, and its limit. -/
theorem run (hs : s.Consistent) {w : Write} (hw : w.TagsAscending) (h : w.run s = .ok s') :
    s'.Consistent ∧ s'.limit = s.limit := by
  cases w with
  | insert e =>
    obtain ⟨x, hx⟩ := map_snd_eq_ok h
    rcases insert_eq_ok hx with ⟨hnone, n, hn, rfl⟩ | ⟨-, rfl⟩ | ⟨old, hold, n, hn, rfl⟩
    · exact ⟨hs.insert_new hw hnone hn, rfl⟩
    · exact ⟨hs, rfl⟩
    · exact ⟨hs.insert_merged hold rfl hn, rfl⟩
  | addTag k t =>
    obtain ⟨x, hx⟩ := map_snd_eq_ok h
    rcases addTag_eq_ok hx with rfl | ⟨e, he, ht, n, hn, rfl⟩
    · exact ⟨hs, rfl⟩
    · exact ⟨hs.addTag_new he ht hn, rfl⟩
  | removeTag k t =>
    cases h
    rcases removeTag_eq s k t with h | ⟨e, he, ht, h⟩ <;> rw [h]
    · exact ⟨hs, rfl⟩
    · exact ⟨hs.removeTag_present he ht, rfl⟩
  | setValue k v =>
    obtain ⟨x, hx⟩ := map_snd_eq_ok h
    rcases setValue_eq_ok hx with rfl | ⟨e, he, n, hn, rfl⟩
    · exact ⟨hs, rfl⟩
    · exact ⟨hs.setValue_present he hn, rfl⟩
  | clear =>
    cases h
    exact ⟨Consistent.clear s, rfl⟩

/-- Every write keeps the store consistent, and its limit; a refused one keeps the store. -/
theorem apply (hs : s.Consistent) {w : Write} (hw : w.TagsAscending) :
    (w.apply s).Consistent ∧ (w.apply s).limit = s.limit := by
  unfold Write.apply
  split
  · rename_i s' h
    exact hs.run hw h
  · exact ⟨hs, rfl⟩

end Consistent

/-- Every store a caller reaches is consistent and keeps its limit. -/
theorem Reachable.consistent {l : Option Nat} {s : EntryStore} (h : Reachable l s) :
    s.Consistent ∧ s.limit = l := by
  induction h with
  | start => exact ⟨Consistent.withLimit l, rfl⟩
  | step w hw _ ih =>
    obtain ⟨hc, hl⟩ := ih
    obtain ⟨hc', hl'⟩ := hc.apply hw
    exact ⟨hc', hl'.trans hl⟩

end EntryStore

open EntryStore in
/-- A store reached from an empty one by any writes, refused ones included, counts exactly the
binary lengths of its entries and stays within its limit; its index holds under each tag exactly
the keys whose entries carry it, with no empty set and no tag twice; and a write it refuses is
refused for space, reporting the store's own count and limit, and leaves it as it was. -/
theorem reachable_store_accounts {l : Option Nat} {s : EntryStore} (h : Reachable l s) :
    s.used = (s.entries.map fun e => e.encode.length).sum ∧
    (∀ L, l = some L → s.used ≤ L) ∧
    (∀ t k, k ∈ (s.tagged t).getD [] ↔ ∃ e ∈ s.entries, e.key = k ∧ e.hasTag t) ∧
    (∀ p ∈ s.byTag, p.2 ≠ []) ∧ (s.byTag.map (·.1)).Nodup ∧
    (∀ (w : Write) (f : Fault), w.run s = .error f →
      (∃ g L, l = some L ∧ f = .outOfSpace g s.used L ∧ L < s.used + g) ∧ w.apply s = s) := by
  obtain ⟨hc, hl⟩ := h.consistent
  refine ⟨?_, fun L hL => hc.within L (hl.trans hL), hc.index.mem, hc.index.nonempty,
    hc.index.nodup, fun w f hf => ⟨?_, ?_⟩⟩
  · simp only [Entry.length_encode]
    exact hc.used
  · obtain ⟨g, L, hL, hf, hlt⟩ := Write.run_eq_error hf
    exact ⟨g, L, hl ▸ hL, hf, hlt⟩
  · simp only [Write.apply, hf]

open EntryStore in
/-- Under a limit of 100 bytes: an entry of 50 bytes goes in, one of 62 more is refused, and the
first loses its tag. -/
theorem reachable_store_accounts_refused :
    let s := (Write.removeTag ⟨1, 0, 0⟩ "a").apply
      ((Write.insert ⟨⟨2, 0, 0⟩, ⟨["a"]⟩, List.replicate 13 0⟩).apply
        ((Write.insert ⟨⟨1, 0, 0⟩, ⟨["a"]⟩, [7]⟩).apply (withLimit (some 100))))
    Reachable (some 100) s ∧
    s.used = (s.entries.map fun e => e.encode.length).sum ∧
    (∀ L, some 100 = some L → s.used ≤ L) ∧
    (∀ t k, k ∈ (s.tagged t).getD [] ↔ ∃ e ∈ s.entries, e.key = k ∧ e.hasTag t) ∧
    (∀ p ∈ s.byTag, p.2 ≠ []) ∧ (s.byTag.map (·.1)).Nodup ∧
    (∀ (w : Write) (f : Fault), w.run s = .error f →
      (∃ g L, some 100 = some L ∧ f = .outOfSpace g s.used L ∧ L < s.used + g) ∧
        w.apply s = s) := by
  intro s
  have h : Reachable (some 100) s :=
    .step _ trivial (.step _ (by decide) (.step _ (by decide) .start))
  exact ⟨h, reachable_store_accounts h⟩

end ShardStore
