import ShardStore.Proofs.Store.Accounting
/-!
What a key holds after entries are inserted one by one.

An insert puts an entry under a key the store lacks, or merges it into the entry the store holds
under its key; `absorb` is the entry the key holds afterwards. On a store without a limit every
write changes what its own key holds and no other key (`Write.onKey`), so writes one by one are
followed key by key (`get?_writeAll`): inserting entries one by one, each key ends up holding
what it held merged in turn with the inserted entries under it, in their order (`absorbAll`).

A store keeps its entries ascending by key, so two stores whose keys hold the same entries list
the same entries, and two consistent stores with the same entries count the same bytes and index
the same keys under each tag. That is how two ways of adding the same entries are compared.
-/

namespace ShardStore

namespace EntryStore

/-- The entry a key holds once `e` is inserted under it: `e` over nothing, the merge over an
entry. -/
def absorb : Option Entry → Entry → Entry
  | none, e => e
  | some d, e => (d.merge e).1

/-- The entry a key holds once entries are inserted one by one: those under the key, merged in
turn into what it held. -/
def absorbAll (held : Option Entry) (k : Key) (es : List Entry) : Option Entry :=
  (es.filter (·.key = k)).foldl (fun o e => some (absorb o e)) held

/-! ### Merging in turn -/

section Absorb

variable {held : Option Entry} {k : Key} {es : List Entry}

theorem absorbAll_cons (e : Entry) (es : List Entry) :
    absorbAll held k (e :: es) =
      absorbAll (if e.key = k then some (absorb held e) else held) k es := by
  unfold absorbAll
  by_cases h : e.key = k <;> simp [h]

/-- A key no entry of the list is under keeps what it held. -/
theorem absorbAll_of_forall_ne (h : ∀ e ∈ es, e.key ≠ k) : absorbAll held k es = held := by
  rw [absorbAll, List.filter_eq_nil_iff.mpr (by simpa using h)]
  rfl

/-- Entries under distinct keys: a key holds what it held merged with the one entry under it, if
there is one. -/
theorem absorbAll_of_pairwise (hu : es.Pairwise fun a b => a.key ≠ b.key) :
    absorbAll held k es = ((es.find? (·.key = k)).map (absorb held)).or held := by
  induction es generalizing held with
  | nil => rfl
  | cons e es ih =>
    obtain ⟨he, hes⟩ := List.pairwise_cons.mp hu
    rw [absorbAll_cons, List.find?_cons]
    by_cases hk : e.key = k
    · -- the first entry is the only one under the key
      subst hk
      simp only [if_pos, decide_true, Option.map_some]
      exact absorbAll_of_forall_ne fun d hd => (he d hd).symm
    · simp only [hk, if_false, decide_false]
      exact ih hes

/-- What a key holds after the entries, told apart as what the entries alone would make of it,
merged into what it held: true when it held nothing, or when at most one entry is under it. -/
theorem absorbAll_eq_absorb (held : Option Entry) (k : Key) (es : List Entry)
    (h : held = none ∨ (es.filter (·.key = k)).length ≤ 1) :
    absorbAll held k es = ((absorbAll none k es).map (absorb held)).or held := by
  unfold absorbAll
  generalize es.filter (·.key = k) = F at h ⊢
  rcases h with rfl | h
  · cases F.foldl (fun o e => some (absorb o e)) none <;> rfl
  · match F, h with
    | [], _ => rfl
    | [_], _ => rfl

/-- A key holds an entry after the merges when it held one or an entry is under it. -/
theorem isSome_absorbAll : ∀ (held : Option Entry) (es : List Entry),
    (absorbAll held k es).isSome = true ↔ held.isSome = true ∨ k ∈ es.map (·.key)
  | held, [] => by simp [absorbAll]
  | held, e :: es => by
    rw [absorbAll_cons, isSome_absorbAll _ es, List.map_cons, List.mem_cons]
    by_cases h : e.key = k
    · simp [h]
    · simp [h, Ne.symm h]

/-- Merging entries with tag sets gives an entry with a tag set. -/
theorem ascending_absorbAll : ∀ {held : Option Entry} {es : List Entry},
    (∀ d ∈ held, d.tags.Ascending) → (∀ e ∈ es, e.tags.Ascending) →
      ∀ d ∈ absorbAll held k es, d.tags.Ascending
  | _, [], hh, _ => hh
  | held, e :: es, hh, he => by
    rw [absorbAll_cons]
    refine ascending_absorbAll (fun d hd => ?_) fun e' he' => he e' (List.mem_cons_of_mem _ he')
    split at hd
    · cases hd
      cases held with
      | none => exact he e List.mem_cons_self
      | some d' => exact Entry.ascending_merge (hh d' rfl) e
    · exact hh d hd

end Absorb

/-! ### One insert -/

section Insert

variable {s s' : EntryStore} {e : Entry} {x : InsertOutcome}

/-- `put` slots an entry in under its key and keeps every other key's entry. -/
theorem find?_put (e : Entry) (k : Key) : ∀ es : List Entry,
    (put e es).find? (·.key = k) = if e.key = k then some e else es.find? (·.key = k)
  | [] => by by_cases h : e.key = k <;> simp [put, h]
  | d :: ds => by
    unfold put
    split
    · simp only [List.find?_cons]
      by_cases h : e.key = k <;> simp [h]
    · -- `e` replaces `d`, which is under the same key
      rename_i heq
      have hed : e.key = d.key := Std.LawfulEqCmp.eq_of_compare heq
      by_cases h : e.key = k
      · simp [h]
      · simp [h, ← hed]
    · rename_i hgt
      rw [List.find?_cons, find?_put e k ds]
      by_cases hd : d.key = k
      · have he : e.key ≠ k := fun h => by
          rw [h, ← hd, Key.compare_self] at hgt
          cases hgt
        simp [hd, he]
      · simp [hd]

theorem merge_eq_unchanged {d m : Entry} (h : d.merge e = (m, .unchanged)) : m = d := by
  unfold Entry.merge at h
  split at h
  · exact (Prod.mk.inj h).1.symm
  · cases h

/-- After an insert, the entry's key holds the entry absorbed into what it held, and every other
key holds what it held. -/
theorem get?_insert (h : s.insert e = .ok (x, s')) (k : Key) :
    s'.get? k = if e.key = k then some (absorb (s.get? e.key) e) else s.get? k := by
  unfold EntryStore.insert at h
  split at h
  · rename_i hnone
    obtain ⟨n, -, hx⟩ := reserve_bind_eq_ok.mp h
    cases hx
    rw [hnone]
    exact find?_put e k s.entries
  · rename_i old hold
    split at h
    · -- nothing merged: the key keeps the entry it held
      rename_i m hm
      cases h
      have hmo : (old.merge e).1 = old := by rw [hm]; exact merge_eq_unchanged hm
      by_cases hk : e.key = k
      · subst hk
        simp [hold, absorb, hmo]
      · simp [hk]
    · rename_i m hm
      obtain ⟨n, -, hx⟩ := reserve_bind_eq_ok.mp h
      cases hx
      have hmk : m.key = e.key := by
        rw [← (get?_key hold).2, ← Entry.key_merge old e, hm]
      show (put m s.entries).find? _ = _
      rw [find?_put, hmk, hold]
      simp [absorb, hm, get?]

/-- A store without a limit takes every insert, and keeps having no limit. -/
theorem insert_ok (hl : s.limit = none) (e : Entry) :
    ∃ x s', s.insert e = .ok (x, s') ∧ s'.limit = none := by
  cases hi : s.insert e with
  | error f =>
    obtain ⟨g, r, hr⟩ := insert_eq_error hi
    obtain ⟨L, hL, -⟩ := reserve_eq_error hr
    rw [hl] at hL
    cases hL
  | ok p =>
    obtain ⟨x, s'⟩ := p
    refine ⟨x, s', rfl, ?_⟩
    -- every kind of insert rebuilds the store with its limit
    rcases insert_eq_ok hi with ⟨-, -, -, rfl⟩ | ⟨-, rfl⟩ | ⟨-, -, -, -, rfl⟩ <;>
      exact hl

theorem apply_insert (h : s.insert e = .ok (x, s')) : (Write.insert e).apply s = s' := by
  simp [Write.apply, Write.run, h]

end Insert

/-! ### Writes key by key -/

namespace Write

/-- What a write makes of the entry under the key `j`, on a store without a limit: an insert
absorbs its entry under its own key, a tag or value change alters the entry under its key if
there is one, and a clear empties every key. -/
def onKey : Write → Key → Option Entry → Option Entry
  | .insert e, j, o => if e.key = j then some (absorb o e) else o
  | .addTag k t, j, o =>
    if k = j then o.map fun d => if d.hasTag t then d else (d.addTag t).1 else o
  | .removeTag k t, j, o =>
    if k = j then o.map fun d => if d.hasTag t then (d.removeTag t).1 else d else o
  | .setValue k v, j, o => if k = j then o.map fun d => { d with value := v } else o
  | .clear, _, _ => none

/-- No write changes the limit. -/
theorem limit_apply (w : Write) (s : EntryStore) : (w.apply s).limit = s.limit := by
  unfold Write.apply
  split
  · rename_i s' h
    cases w with
    | insert e =>
      obtain ⟨x, hx⟩ := map_snd_eq_ok h
      rcases insert_eq_ok hx with ⟨-, -, -, rfl⟩ | ⟨-, rfl⟩ | ⟨-, -, -, -, rfl⟩ <;> rfl
    | addTag k t =>
      obtain ⟨x, hx⟩ := map_snd_eq_ok h
      rcases addTag_eq_ok hx with rfl | ⟨-, -, -, -, -, rfl⟩ <;> rfl
    | removeTag k t =>
      cases h
      rcases removeTag_eq s k t with h | ⟨-, -, -, h⟩ <;> rw [h]
    | setValue k v =>
      obtain ⟨x, hx⟩ := map_snd_eq_ok h
      rcases setValue_eq_ok hx with rfl | ⟨-, -, -, -, rfl⟩ <;> rfl
    | clear => cases h; rfl
  · rfl

end Write

/-- The store after writes one by one, a refused write leaving it as it was. -/
def writeAll (s : EntryStore) (ws : List Write) : EntryStore := ws.foldl (fun s w => w.apply s) s

section Keywise

variable {s : EntryStore}

/-- `modify` changes the first entry under its key, and the entries under other keys not at
all. -/
theorem find?_modify {k : Key} {f : Entry → Entry} (hf : ∀ d, d.key = k → (f d).key = k)
    (j : Key) : ∀ es : List Entry, (modify k f es).find? (·.key = j) =
      if k = j then (es.find? (·.key = k)).map f else es.find? (·.key = j)
  | [] => by simp [modify]
  | d :: ds => by
    unfold modify
    split
    · rename_i hd
      by_cases hkj : k = j
      · subst hkj
        simp [hd, hf d hd]
      · simp [hd, hf d hd, hkj]
    · rename_i hd
      simp only [List.find?_cons]
      rw [find?_modify hf j ds]
      by_cases hkj : k = j
      · subst hkj
        simp [hd]
      · simp [hkj]

theorem reserve_of_none (hl : s.limit = none) (g r : Nat) :
    s.reserve g r = .ok (s.used - r + g) := by
  simp [reserve, hl]

/-- A change at `k` that keeps what `k` holds keeps what every key holds. -/
theorem get?_eq_ite_map {k j : Key} {g : Entry → Entry} (h : (s.get? k).map g = s.get? k) :
    s.get? j = if k = j then (s.get? j).map g else s.get? j := by
  by_cases hkj : k = j
  · subst hkj
    rw [if_pos rfl, h]
  · rw [if_neg hkj]

/-- Changing the entry under `k` by `f`, which keeps keys, is what `onKey` says of such a
change. -/
theorem get?_modify {k j : Key} {f g : Entry → Entry} (hf : ∀ d, d.key = k → (f d).key = k)
    (hg : ∀ d, s.get? k = some d → f d = g d) :
    (modify k f s.entries).find? (·.key = j) = if k = j then (s.get? j).map g else s.get? j := by
  rw [find?_modify hf]
  show (if k = j then (s.get? k).map f else s.get? j) = _
  by_cases hkj : k = j
  · subst hkj
    cases hd : s.get? k with
    | none => simp
    | some d => simp [hg d hd]
  · simp [hkj]

/-- On a store without a limit, a write changes what its key holds as `onKey` says and leaves
every other key alone. -/
theorem get?_apply (hl : s.limit = none) (w : Write) (j : Key) :
    (w.apply s).get? j = w.onKey j (s.get? j) := by
  cases w with
  | insert e =>
    obtain ⟨x, s', hi, -⟩ := insert_ok hl e
    rw [apply_insert hi, get?_insert hi, Write.onKey]
    by_cases hk : e.key = j
    · subst hk
      simp
    · simp [hk]
  | addTag k t =>
    simp only [Write.apply, Write.run, EntryStore.addTag, Write.onKey]
    cases hd : s.get? k with
    | none =>
      simpa [pure, Except.pure, Functor.map, Except.map] using get?_eq_ite_map (by simp [hd])
    | some d =>
      by_cases ht : d.hasTag t
      · simpa [ht, pure, Except.pure, Functor.map, Except.map] using
          get?_eq_ite_map (by simp [hd, ht])
      · simp only [ht, reserve_of_none hl, Bool.false_eq_true, if_false]
        exact get?_modify (fun _ h => h) fun d' hd' => by
          rw [hd] at hd'
          cases hd'
          simp [ht]
  | removeTag k t =>
    simp only [Write.apply, Write.run, EntryStore.removeTag, Write.onKey]
    cases hd : s.get? k with
    | none => simpa using get?_eq_ite_map (by simp [hd])
    | some d =>
      by_cases ht : d.hasTag t
      · simp only [ht, if_true]
        exact get?_modify (fun _ h => h) fun d' hd' => by
          rw [hd] at hd'
          cases hd'
          simp [ht]
      · simpa [ht] using get?_eq_ite_map (by simp [hd, ht])
  | setValue k v =>
    simp only [Write.apply, Write.run, EntryStore.setValue, Write.onKey]
    cases hd : s.get? k with
    | none =>
      simpa [pure, Except.pure, Functor.map, Except.map] using get?_eq_ite_map (by simp [hd])
    | some d =>
      simp only [reserve_of_none hl]
      exact get?_modify (fun _ h => h) fun _ _ => rfl
  | clear => rfl

theorem limit_writeAll : ∀ (ws : List Write) (s : EntryStore), (s.writeAll ws).limit = s.limit
  | [], _ => rfl
  | w :: ws, s => (limit_writeAll ws (w.apply s)).trans (w.limit_apply s)

/-- On a store without a limit, what a key holds after writes one by one is what each write in
turn makes of it. -/
theorem get?_writeAll : ∀ (ws : List Write) {s : EntryStore}, s.limit = none → ∀ j,
    (s.writeAll ws).get? j = ws.foldl (fun o w => w.onKey j o) (s.get? j)
  | [], _, _, _ => rfl
  | w :: ws, s, hl, j => by
    rw [List.foldl_cons, ← get?_apply hl]
    exact get?_writeAll ws ((w.limit_apply s).trans hl) j

/-- An insert the store takes, then more writes. -/
theorem writeAll_insert_cons {e : Entry} {x : InsertOutcome} {s' : EntryStore}
    (hi : s.insert e = .ok (x, s')) (ws : List Write) :
    s.writeAll (.insert e :: ws) = s'.writeAll ws := by
  rw [writeAll, List.foldl_cons, apply_insert hi]
  rfl

/-- Writes that leave a key alone one by one leave it alone together. -/
theorem foldl_onKey_of_forall {j : Key} :
    ∀ {ws : List Write}, (∀ w ∈ ws, ∀ o, w.onKey j o = o) → ∀ o,
      ws.foldl (fun o w => w.onKey j o) o = o
  | [], _, _ => rfl
  | w :: ws, h, o => by
    rw [List.foldl_cons, h w List.mem_cons_self]
    exact foldl_onKey_of_forall (fun w' hw' => h w' (List.mem_cons_of_mem _ hw')) o

/-- Inserts make of a key what merging in turn makes of it. -/
theorem foldl_onKey_insert (k : Key) : ∀ (es : List Entry) (held : Option Entry),
    (es.map Write.insert).foldl (fun o w => w.onKey k o) held = absorbAll held k es
  | [], _ => rfl
  | e :: es, held => by
    rw [List.map_cons, List.foldl_cons, absorbAll_cons, ← foldl_onKey_insert k es]
    rfl

/-- Writes with tag sets keep a store reachable. -/
theorem Reachable.writeAll {l : Option Nat} : ∀ {s : EntryStore} {ws : List Write},
    Reachable l s → (∀ w ∈ ws, w.TagsAscending) → Reachable l (s.writeAll ws)
  | _, [], h, _ => h
  | s, w :: ws, h, ht =>
    @Reachable.writeAll l (w.apply s) ws (.step w (ht w List.mem_cons_self) h)
      fun w' hw' => ht w' (List.mem_cons_of_mem _ hw')

end Keywise

/-! ### Stores compared by what their keys hold -/

/-- With no key twice, an entry of the list is the one found under its key. -/
theorem find?_key_of_mem {a : Entry} :
    ∀ {l : List Entry}, l.Pairwise (fun a b => a.key ≠ b.key) → a ∈ l →
      l.find? (·.key = a.key) = some a
  | [], _, ha => nomatch ha
  | d :: ds, hu, ha => by
    obtain ⟨hd, hds⟩ := List.pairwise_cons.mp hu
    rw [List.find?_cons]
    rcases List.mem_cons.mp ha with rfl | ha
    · simp
    · have hne : d.key ≠ a.key := hd a ha
      simp only [hne, decide_false]
      exact find?_key_of_mem hds ha

/-- Two key-ascending lists with the same entry under every key are one list. -/
theorem eq_of_find? {l₁ l₂ : List Entry} (h₁ : KeyAscending l₁) (h₂ : KeyAscending l₂)
    (h : ∀ k, l₁.find? (·.key = k) = l₂.find? (·.key = k)) : l₁ = l₂ := by
  have hu₁ := h₁.keys_ne
  have hu₂ := h₂.keys_ne
  have hmem : ∀ {l l' : List Entry}, l.Pairwise (fun a b => a.key ≠ b.key) →
      (∀ k, l.find? (·.key = k) = l'.find? (·.key = k)) → ∀ a ∈ l, a ∈ l' :=
    fun hu hl a ha => List.mem_of_find?_eq_some ((hl a.key).symm.trans (find?_key_of_mem hu ha))
  have hnodup : ∀ {l : List Entry}, l.Pairwise (fun a b => a.key ≠ b.key) → l.Nodup :=
    fun hu => hu.imp fun {a b} (hne : a.key ≠ b.key) (heq : a = b) => hne (heq ▸ rfl)
  have hperm : l₁.Perm l₂ := (List.perm_ext_iff_of_nodup (hnodup hu₁) (hnodup hu₂)).mpr
    fun a => ⟨hmem hu₁ h a, hmem hu₂ (fun k => (h k).symm) a⟩
  -- two entries each below the other cannot be
  refine hperm.eq_of_pairwise (fun a b _ _ hab hba => ?_) h₁ h₂
  exact absurd (Std.TransCmp.lt_trans hab hba) (Key.compare_self_ne_lt a.key)

/-- Consistent stores with the same entries count the same bytes and index the same keys under
each tag. -/
theorem Consistent.same_of_entries {s t : EntryStore} (hs : s.Consistent) (ht : t.Consistent)
    (h : s.entries = t.entries) :
    s.used = t.used ∧ ∀ u k, k ∈ (s.tagged u).getD [] ↔ k ∈ (t.tagged u).getD [] := by
  refine ⟨by rw [hs.used, ht.used, h], fun u k => ?_⟩
  rw [tagged, tagged, hs.index.mem, ht.index.mem, h]

end EntryStore

/-! ### New entries held by a stage -/

namespace Staged

open EntryStore

theorem key_absorb_find? (e : Entry) (ds : List Entry) :
    (absorb (ds.find? (·.key = e.key)) e).key = e.key := by
  cases hf : ds.find? (·.key = e.key) with
  | none => rfl
  | some c =>
    have hc : c.key = e.key := by simpa using List.find?_some hf
    rw [absorb, Entry.key_merge, hc]

/-- Holding a new entry, on key-ascending held entries, puts in the entry merged into the one
held under its key: the stage merges the way the store does. -/
theorem putEntry_eq_put (e : Entry) :
    ∀ {ds : List Entry}, KeyAscending ds →
      putEntry e ds = put (absorb (ds.find? (·.key = e.key)) e) ds
  | [], _ => rfl
  | d :: ds, hs => by
    obtain ⟨hd, hds⟩ := List.pairwise_cons.mp hs
    unfold putEntry
    split
    · -- `e` comes first, and no held entry is under its key
      rename_i hlt
      have hnone : (d :: ds).find? (·.key = e.key) = none := by
        refine List.find?_eq_none.mpr fun c hc hce => ?_
        have hdc : Key.compare e.key c.key = .lt := by
          rcases List.mem_cons.mp hc with rfl | hc
          · exact hlt
          · exact Std.TransCmp.lt_trans hlt (hd c hc)
        rw [of_decide_eq_true hce, Key.compare_self] at hdc
        cases hdc
      rw [hnone, absorb, put, hlt]
    · rename_i heq
      have hed : e.key = d.key := Std.LawfulEqCmp.eq_of_compare heq
      have hfind : (d :: ds).find? (·.key = e.key) = some d := by simp [hed]
      rw [hfind, absorb, put, Entry.key_merge, Key.compare_self]
    · rename_i hgt
      have hne : d.key ≠ e.key := fun h => by rw [h, Key.compare_self] at hgt; cases hgt
      have hfind : (d :: ds).find? (·.key = e.key) = ds.find? (·.key = e.key) := by simp [hne]
      rw [hfind, put, key_absorb_find?, hgt, putEntry_eq_put e hds]

theorem ascending_putEntry (e : Entry) {ds : List Entry} (hs : KeyAscending ds) :
    KeyAscending (putEntry e ds) := by
  rw [putEntry_eq_put e hs]
  exact ascending_put _ hs

/-- Holding a new entry merges it into the entry held under its key, and keeps every other key's
held entry. -/
theorem find?_putEntry (e : Entry) {ds : List Entry} (hs : KeyAscending ds) (k : Key) :
    (putEntry e ds).find? (·.key = k) =
      if e.key = k then some (absorb (ds.find? (·.key = k)) e) else ds.find? (·.key = k) := by
  rw [putEntry_eq_put e hs, find?_put, key_absorb_find?]
  by_cases hk : e.key = k
  · subst hk
    rfl
  · simp [hk]

/-- New entries held one by one: ascending by key, each key holding the entries under it merged
in turn. -/
theorem find?_foldl_putEntry : ∀ (es : List Entry) {ds : List Entry}, KeyAscending ds →
    KeyAscending (es.foldl (fun ds e => putEntry e ds) ds) ∧
      ∀ k, (es.foldl (fun ds e => putEntry e ds) ds).find? (·.key = k) =
        absorbAll (ds.find? (·.key = k)) k es
  | [], _, hs => ⟨hs, fun _ => rfl⟩
  | e :: es, ds, hs => by
    obtain ⟨hs', hfind⟩ := find?_foldl_putEntry es (ascending_putEntry e hs)
    refine ⟨hs', fun k => ?_⟩
    rw [List.foldl_cons, hfind, find?_putEntry e hs, absorbAll_cons]

/-- A stage holds an entry under exactly the keys of the new entries held. -/
theorem mem_keys_foldl_putEntry (es : List Entry) (k : Key) :
    k ∈ (es.foldl (fun ds e => putEntry e ds) []).map (·.key) ↔ k ∈ es.map (·.key) := by
  obtain ⟨-, hfind⟩ := find?_foldl_putEntry es (List.Pairwise.nil : KeyAscending [])
  have hmem : ∀ l : List Entry, k ∈ l.map (·.key) ↔ (l.find? (·.key = k)).isSome := by
    intro l
    simp only [List.mem_map, List.find?_isSome, decide_eq_true_eq]
  rw [hmem, hfind, List.find?_nil, isSome_absorbAll]
  simp

/-- New entries with tag sets are held with tag sets. -/
theorem tags_foldl_putEntry {es : List Entry} (he : ∀ e ∈ es, e.tags.Ascending) :
    ∀ d ∈ es.foldl (fun ds e => putEntry e ds) [], d.tags.Ascending := by
  obtain ⟨hasc, hfind⟩ := find?_foldl_putEntry es (List.Pairwise.nil : KeyAscending [])
  intro d hd
  -- the held entry under a key is what merging the entries under it makes of nothing
  have hdfind := find?_key_of_mem hasc.keys_ne hd
  rw [hfind, List.find?_nil] at hdfind
  exact ascending_absorbAll (fun _ h => absurd h (Option.not_mem_none _)) he d hdfind

end Staged

end ShardStore
