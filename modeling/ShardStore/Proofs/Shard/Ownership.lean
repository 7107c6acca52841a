import ShardStore.Shard.Basic
import ShardStore.Proofs.Assertion
/-!
Which keys a shard holds.

A shard holds keys in three places: the entries of its store, the writes it has staged, and the
keys its waiters wait on. Whether a key may be held is a predicate `own` here, so that the facts
below are about a shard alone; a mesh takes `own` to be "the ring gives this key to this agent".

Each operation an agent runs on its shard when it takes a write keeps every held key allowed,
given that the write is for an allowed key and already has its key: it then draws nothing from
the key source either. What the operations hand back (the wakes of fired waiters, the wake of a
subscription whose key exists) is for the caller to route, and may be for any key.
-/

namespace ShardStore

/-- A write that already has its key: a new entry is not waiting for one from a key source. -/
def Mutation.Keyed : Mutation → Prop
  | .addEntry e => e.key ≠ Key.unassigned
  | _ => True

theorem Mutation.keyed_iff (mu : Mutation) :
    mu.Keyed ↔ ∀ e, mu = .addEntry e → mu.routeKey ≠ Key.unassigned := by
  cases mu <;> simp [Keyed, routeKey]

namespace EntryStore

variable {own : Key → Prop}

theorem mem_put {e d : Entry} : ∀ {ds : List Entry}, d ∈ put e ds → d = e ∨ d ∈ ds
  | [], h => by simpa [put] using h
  | c :: cs, h => by
    unfold put at h
    split at h
    · simpa using h
    · rcases List.mem_cons.mp h with h | h
      · exact .inl h
      · exact .inr (List.mem_cons_of_mem _ h)
    · rcases List.mem_cons.mp h with h | h
      · exact .inr (h ▸ List.mem_cons_self)
      · rcases mem_put h with h | h
        · exact .inl h
        · exact .inr (List.mem_cons_of_mem _ h)

/-- Changing an entry in place keeps the keys when the change keeps the entry's key. -/
theorem key_mem_modify {k : Key} {f : Entry → Entry} (hf : ∀ d, (f d).key = d.key) {d : Entry} :
    ∀ {ds : List Entry}, d ∈ modify k f ds → ∃ c ∈ ds, c.key = d.key
  | [], h => by simp [modify] at h
  | c :: cs, h => by
    unfold modify at h
    split at h
    · rcases List.mem_cons.mp h with h | h
      · exact ⟨c, List.mem_cons_self, h ▸ (hf c).symm⟩
      · exact ⟨d, List.mem_cons_of_mem _ h, rfl⟩
    · rcases List.mem_cons.mp h with h | h
      · exact ⟨c, List.mem_cons_self, h ▸ rfl⟩
      · obtain ⟨c', hc', hk⟩ := key_mem_modify hf h
        exact ⟨c', List.mem_cons_of_mem _ hc', hk⟩

theorem owns_modify {k : Key} {f : Entry → Entry} (hf : ∀ d, (f d).key = d.key)
    {ds : List Entry} (h : ∀ d ∈ ds, own d.key) : ∀ d ∈ modify k f ds, own d.key := by
  intro d hd
  obtain ⟨c, hc, hk⟩ := key_mem_modify hf hd
  exact hk ▸ h c hc

theorem get?_key {s : EntryStore} {k : Key} {d : Entry} (h : s.get? k = some d) :
    d ∈ s.entries ∧ d.key = k := by
  unfold get? at h
  exact ⟨List.mem_of_find?_eq_some h, by simpa using List.find?_some h⟩

theorem owns_insert {s s' : EntryStore} {e : Entry} {x : InsertOutcome}
    (hs : ∀ d ∈ s.entries, own d.key) (he : own e.key) (h : s.insert e = .ok (x, s')) :
    ∀ d ∈ s'.entries, own d.key := by
  unfold insert at h
  split at h
  · -- a new key: the entry goes in under its own key
    obtain ⟨used, -, rfl⟩ : ∃ used, s.reserve e.size 0 = .ok used ∧
        s' = { s with entries := put e s.entries, byTag := indexTags e s.byTag, used } := by
      simp only [bind, Except.bind, pure, Except.pure] at h
      split at h <;> simp_all
    intro d hd
    rcases mem_put hd with rfl | hd
    · exact he
    · exact hs d hd
  · -- a merge keeps the key of the entry already there
    rename_i old hold
    have hold_key : own old.key := (get?_key hold).2 ▸ he
    rcases hmerge : old.merge e with ⟨m, o⟩
    have hm_key : m.key = old.key := by
      have := congrArg (·.1.key) hmerge
      unfold Entry.merge at this
      split at this <;> simp_all
    rw [hmerge] at h
    cases o with
    | unchanged => cases h; exact hs
    | merged =>
      obtain ⟨used, -, rfl⟩ : ∃ used, s.reserve m.size old.size = .ok used ∧
          s' = { s with entries := put m s.entries, byTag := indexTags m s.byTag, used } := by
        simp only [bind, Except.bind, pure, Except.pure] at h
        split at h <;> simp_all
      intro d hd
      rcases mem_put hd with rfl | hd
      · exact hm_key ▸ hold_key
      · exact hs d hd

theorem owns_addTag {s s' : EntryStore} {k : Key} {t : String} {x : Bool}
    (hs : ∀ d ∈ s.entries, own d.key) (h : s.addTag k t = .ok (x, s')) :
    ∀ d ∈ s'.entries, own d.key := by
  unfold addTag at h
  split at h
  · cases h; exact hs
  · split at h
    · cases h; exact hs
    · simp only [bind, Except.bind, pure, Except.pure] at h
      split at h
      · cases h
      · cases h
        exact owns_modify (f := fun d => (d.addTag t).1) (fun _ => rfl) hs

theorem owns_setValue {s s' : EntryStore} {k : Key} {v : Bytes} {x : Bool}
    (hs : ∀ d ∈ s.entries, own d.key) (h : s.setValue k v = .ok (x, s')) :
    ∀ d ∈ s'.entries, own d.key := by
  unfold setValue at h
  split at h
  · cases h; exact hs
  · simp only [bind, Except.bind, pure, Except.pure] at h
    split at h
    · cases h
    · cases h
      exact owns_modify (f := fun d => { d with value := v }) (fun _ => rfl) hs

theorem owns_removeTag {s : EntryStore} {k : Key} {t : String}
    (hs : ∀ d ∈ s.entries, own d.key) : ∀ d ∈ (s.removeTag k t).2.entries, own d.key := by
  unfold removeTag
  split
  · split
    · exact owns_modify (f := fun d => (d.removeTag t).1) (fun _ => rfl) hs
    · exact hs
  · exact hs

end EntryStore

namespace Staged

variable {own : Key → Prop}

/-- Every staged write is for a key satisfying `own`. -/
structure Owns (own : Key → Prop) (st : Staged) : Prop where
  newEntries : ∀ e ∈ st.newEntries, own e.key
  valueUpdates : ∀ p ∈ st.valueUpdates, own p.1
  tagsToAdd : ∀ p ∈ st.tagsToAdd, own p.1
  tagsToRemove : ∀ p ∈ st.tagsToRemove, own p.1

theorem owns_empty : empty.Owns own := ⟨nofun, nofun, nofun, nofun⟩

theorem owns_putEntry {e : Entry} (he : own e.key) :
    ∀ {ds : List Entry}, (∀ d ∈ ds, own d.key) → ∀ d ∈ putEntry e ds, own d.key
  | [], _ => by simpa [putEntry] using he
  | c :: cs, hs => by
    have hc := hs c List.mem_cons_self
    have hcs : ∀ d ∈ cs, own d.key := fun d hd => hs d (List.mem_cons_of_mem _ hd)
    unfold putEntry
    split
    · intro d hd
      rcases List.mem_cons.mp hd with rfl | hd
      · exact he
      · exact hs d hd
    · -- a merge keeps the key of the entry held first
      intro d hd
      rcases List.mem_cons.mp hd with rfl | hd
      · unfold Entry.merge
        split <;> exact hc
      · exact hcs d hd
    · intro d hd
      rcases List.mem_cons.mp hd with rfl | hd
      · exact hc
      · exact owns_putEntry he hcs d hd

/-- Staging a write for an allowed key keeps the staged keys allowed; a subscription is handed
back unstaged. -/
theorem Owns.stage {st : Staged} (h : st.Owns own) {mu : Mutation} (hown : own mu.routeKey) :
    (st.stage mu).1.Owns own := by
  cases mu with
  | addEntry e => exact { h with newEntries := owns_putEntry hown h.newEntries }
  | addTag k t =>
    refine { h with tagsToAdd := fun p hp => ?_ }
    rcases List.mem_append.mp hp with hp | hp
    · exact h.tagsToAdd p hp
    · simp only [List.mem_singleton] at hp
      exact hp ▸ hown
  | removeTag k t =>
    refine { h with tagsToRemove := fun p hp => ?_ }
    rcases List.mem_append.mp hp with hp | hp
    · exact h.tagsToRemove p hp
    · simp only [List.mem_singleton] at hp
      exact hp ▸ hown
  | updateValue k v =>
    refine { h with valueUpdates := fun p hp => ?_ }
    rcases List.mem_append.mp hp with hp | hp
    · exact h.valueUpdates p hp
    · simp only [List.mem_singleton] at hp
      exact hp ▸ hown
  | subscribe s w r => exact h

theorem stage_eq_none {st : Staged} {mu : Mutation} (hns : ∀ s w r, mu ≠ .subscribe s w r) :
    (st.stage mu).2 = none := by
  cases mu <;> simp_all [stage]

end Staged

namespace Waiters

variable {own : Key → Prop}

theorem owns_register {w : Waiters} {waitKey subscriber : Key} {wake : Wake}
    (hw : ∀ p ∈ w.byKey, own p.1) (hk : own waitKey) :
    ∀ p ∈ (w.register waitKey subscriber wake).byKey, own p.1 := by
  unfold register
  dsimp only
  split
  · split
    · exact hw
    · intro p hp
      obtain ⟨q, hq, rfl⟩ := List.mem_map.mp hp
      split <;> exact hw q hq
  · intro p hp
    rcases List.mem_append.mp hp with hp | hp
    · exact hw p hp
    · simp only [List.mem_singleton] at hp
      exact hp ▸ hk

theorem owns_fire {w : Waiters} {k : Key} (hw : ∀ p ∈ w.byKey, own p.1) :
    ∀ p ∈ (w.fire k).2.byKey, own p.1 := by
  intro p hp
  exact hw p (List.mem_filter.mp hp).1

end Waiters

namespace Shard

/-- Every key a shard holds satisfies `own`: the keys of its entries, of its staged writes, and
those its waiters wait on. -/
structure Owns (own : Key → Prop) (s : Shard) : Prop where
  store : ∀ e ∈ s.store.entries, own e.key
  staged : s.staged.Owns own
  waiters : ∀ p ∈ s.waiters.byKey, own p.1

variable {C : Prop} {own : Key → Prop} {keys : KeySource}

theorem Owns.with_store {s : Shard} {st : EntryStore} (h : s.Owns own)
    (hst : ∀ d ∈ st.entries, own d.key) : ({ s with store := st } : Shard).Owns own :=
  ⟨hst, h.staged, h.waiters⟩

theorem Owns.with_waiters {s : Shard} {w : Waiters} (h : s.Owns own)
    (hw : ∀ p ∈ w.byKey, own p.1) : ({ s with waiters := w } : Shard).Owns own :=
  ⟨h.store, h.staged, hw⟩

theorem Owns.with_staged {s : Shard} {st : Staged} (h : s.Owns own) (hst : st.Owns own) :
    ({ s with staged := st } : Shard).Owns own :=
  ⟨h.store, hst, h.waiters⟩

/-- The shard's key source has only moved on from `keys`: same seed, no fewer keys drawn; and
when `C` holds, every key the shard holds is allowed. -/
structure Tracks (C : Prop) (own : Key → Prop) (keys : KeySource) (s : Shard) : Prop where
  seed : s.keys.seed = keys.seed
  drawn : keys.drawn ≤ s.keys.drawn
  owns : C → s.Owns own

/-- A change of a shard's other parts leaves its key source alone. -/
theorem Tracks.of_keys {s s' : Shard} (h : s.Tracks C own keys) (hk : s'.keys = s.keys)
    (hown : C → s.Owns own → s'.Owns own) : s'.Tracks C own keys :=
  ⟨hk ▸ h.seed, hk ▸ h.drawn, fun hc => hown hc (h.owns hc)⟩

/-- The assertion shard operations keep: the shard tracks `keys` and the fact holds. Taking a
write that is allowed and keyed whenever `C` holds, an operation keeps the shard's keys allowed
whenever `C` holds; whatever the write, its key source only moves forward. -/
def owning (C : Prop) (own : Key → Prop) (keys : KeySource) : Assertion Shard where
  holds P s := s.Tracks C own keys ∧ P
  weaken h hs := ⟨hs.1, h hs.2⟩

/-- The facts an operation starts from are at hand throughout: the assertion carries them. -/
theorem keeps_intro {P : Prop} {α : Type} {x : ShardOp α} {Q : α → Prop}
    (h : P → (owning C own keys).Keeps P x Q) : (owning C own keys).Keeps P x Q :=
  fun F s hs => h hs.2.2 F s hs

/-- What an operation reads off the shard tracks the key source. -/
theorem keeps_get_bind {P : Prop} {α : Type} {f : Shard → ShardOp α} {Q : α → Prop}
    (h : ∀ s, s.Tracks C own keys → (owning C own keys).Keeps P (f s) Q) :
    (owning C own keys).Keeps P (get >>= f) Q :=
  fun F s hs => h s hs.1 F s hs

theorem keeps_set {P : Prop} {s' : Shard} (h : s'.Tracks C own keys) :
    (owning C own keys).Keeps P (set s' : ShardOp PUnit) (fun _ => P) :=
  fun _ _ hs => ⟨h, hs.2.1, hs.2.2⟩

theorem keeps_modify {P : Prop} {f : Shard → Shard}
    (hf : ∀ s, s.Tracks C own keys → (f s).Tracks C own keys) :
    (owning C own keys).Keeps P (modify f : ShardOp PUnit) (fun _ => P) :=
  fun _ s hs => ⟨hf s hs.1, hs.2.1, hs.2.2⟩

/-- A store change that keeps the store's keys allowed. -/
theorem keeps_onStore {P : Prop} {α : Type} {f : EntryStore → Outcome (α × EntryStore)}
    (hf : C → ∀ st x st', (∀ d ∈ st.entries, own d.key) → f st = .ok (x, st') →
      ∀ d ∈ st'.entries, own d.key) :
    (owning C own keys).Keeps P (onStore f) (fun _ => P) := by
  unfold onStore
  refine keeps_get_bind fun s hs => ?_
  split
  · rename_i x st hst
    refine Assertion.keeps_bind (keeps_set (hs.of_keys rfl fun hc hso => ?_)) fun _ =>
      Assertion.keeps_pure id
    exact hso.with_store (hf hc _ _ _ hso.store hst)
  · exact Assertion.keeps_throw _

/-- A keyed entry keeps its key, and nothing is drawn. -/
theorem assignKey_keyed {e : Entry} (hk : e.key ≠ Key.unassigned) (s : Shard) :
    assignKey e s = .ok e s := by
  simp only [assignKey, KeySource.assign, hk, ↓reduceIte]
  rfl

/-- An entry without a key gets the next key of the source, which moves on by one. -/
theorem assignKey_unassigned {e : Entry} (hk : e.key = Key.unassigned) (s : Shard) :
    assignKey e s = .ok { e with key := KeySource.keyAt s.keys.seed s.keys.drawn }
      { s with keys := { s.keys with drawn := s.keys.drawn + 1 } } := by
  simp only [assignKey, KeySource.assign, KeySource.next, hk, ↓reduceIte]
  rfl

theorem keeps_assignKey {P : Prop} {e : Entry} (hk : C → e.key ≠ Key.unassigned) :
    (owning C own keys).Keeps P (assignKey e) (fun e' => P ∧ (C → e' = e)) := by
  intro F s hs
  show (owning C own keys).Ends F _ (assignKey e s)
  by_cases he : e.key = Key.unassigned
  · -- only where ownership is not tracked: a key is drawn, and the source moves on
    have hc : ¬ C := fun hc => hk hc he
    rw [assignKey_unassigned he s]
    exact ⟨⟨hs.1.seed, Nat.le_succ_of_le hs.1.drawn, fun h => absurd h hc⟩, hs.2.1, hs.2.2,
      fun h => absurd h hc⟩
  · rw [assignKey_keyed he s]
    exact ⟨hs.1, hs.2.1, hs.2.2, fun _ => rfl⟩

/-- A subscription on an allowed key leaves a waiter on it, or hands back its wake. -/
theorem keeps_subscribe {P : Prop} {sub w : Key} {r : Wake} (hw : C → own w) :
    (owning C own keys).Keeps P (subscribe sub w r) (fun _ => P) := by
  unfold subscribe
  refine keeps_get_bind fun s hs => ?_
  split
  · exact Assertion.keeps_pure id
  · refine Assertion.keeps_bind (keeps_set (hs.of_keys rfl fun hc hso => ?_)) fun _ =>
      Assertion.keeps_pure id
    exact hso.with_waiters (Waiters.owns_register hso.waiters (hw hc))

/-- Firing the waiters on a key only removes waiters. -/
theorem keeps_fire {P : Prop} {β : Type} {k : Key} {g : List Mutation → β} :
    (owning C own keys).Keeps P (do
      let s ← get
      let (wakes, waiters) := s.waiters.fire k
      set { s with waiters }
      pure (g wakes) : ShardOp β) (fun _ => P) := by
  refine keeps_get_bind fun s hs => ?_
  exact Assertion.keeps_bind (keeps_set (hs.of_keys rfl fun _ hso =>
    hso.with_waiters (Waiters.owns_fire hso.waiters))) fun _ => Assertion.keeps_pure id

/-- Applying a write for an allowed key that has its key keeps every held key allowed. -/
theorem keeps_apply {P : Prop} {mu : Mutation} (hown : C → own mu.routeKey)
    (hk : C → mu.Keyed) : (owning C own keys).Keeps P (apply mu) (fun _ => P) := by
  cases mu with
  | addEntry e =>
    -- the entry keeps its key, is stored under it and fires the waiters on it
    refine Assertion.keeps_bind (keeps_assignKey hk) fun e' => keeps_intro fun ⟨_, he'⟩ => ?_
    refine Assertion.keeps_bind (keeps_onStore fun hc _ _ _ hst h =>
      EntryStore.owns_insert hst ((he' hc).symm ▸ hown hc) h) fun _ => ?_
    exact (keeps_fire (g := id)).conseq (fun h => h.1) fun _ h => h
  | addTag k t =>
    exact Assertion.keeps_bind (keeps_onStore fun _ _ _ _ => EntryStore.owns_addTag) fun _ =>
      Assertion.keeps_pure id
  | removeTag k t =>
    exact Assertion.keeps_bind (keeps_modify fun s hs => hs.of_keys rfl fun _ hso =>
      hso.with_store (EntryStore.owns_removeTag hso.store)) fun _ => Assertion.keeps_pure id
  | updateValue k v =>
    exact Assertion.keeps_bind (keeps_onStore fun _ _ _ _ => EntryStore.owns_setValue) fun _ =>
      Assertion.keeps_pure id
  | subscribe s w r =>
    exact Assertion.keeps_bind (keeps_subscribe hown) fun _ => Assertion.keeps_pure id

/-- Staging a new entry gives it a key first. -/
theorem stage_addEntry (e : Entry) : stage (.addEntry e) = (do
    let e ← assignKey e
    modify fun s => { s with staged := (s.staged.stage (.addEntry e)).1 }) := by
  funext s
  simp only [stage, bind, EStateM.bind]
  cases assignKey e s <;> rfl

/-- Staging a tag or value change holds it and does nothing else. -/
theorem stage_of_change {mu : Mutation} (hns : ∀ s w r, mu ≠ .subscribe s w r)
    (hne : ∀ e, mu ≠ .addEntry e) :
    stage mu = modify fun s => { s with staged := (s.staged.stage mu).1 } := by
  cases mu with
  | addEntry e => exact absurd rfl (hne e)
  | subscribe sub w r => exact absurd rfl (hns sub w r)
  | _ => rfl

/-- Staging a write for an allowed key that has its key, other than a subscription, holds it
under that key. -/
theorem keeps_stage {P : Prop} {mu : Mutation} (hown : C → own mu.routeKey)
    (hk : C → mu.Keyed) (hns : ∀ s w r, mu ≠ .subscribe s w r) :
    (owning C own keys).Keeps P (stage mu) (fun _ => P) := by
  have hstaged : ∀ mu : Mutation, (C → own mu.routeKey) → ∀ s : Shard, s.Tracks C own keys →
      ({ s with staged := (s.staged.stage mu).1 } : Shard).Tracks C own keys :=
    fun mu hown s hs =>
      hs.of_keys rfl fun hc hso => hso.with_staged (hso.staged.stage (hown hc))
  by_cases he : ∃ e, mu = .addEntry e
  · obtain ⟨e, rfl⟩ := he
    rw [stage_addEntry]
    refine Assertion.keeps_bind (keeps_assignKey hk) fun e' => keeps_intro fun ⟨_, he'⟩ => ?_
    exact (keeps_modify (hstaged _ fun hc => (he' hc).symm ▸ hown hc)).conseq id fun _ h => h.1
  · rw [stage_of_change hns fun e h => he ⟨e, h⟩]
    exact keeps_modify (hstaged mu hown)

/-- Committing puts the staged entries into the store under their keys and changes entries in
place; nothing staged is left. -/
theorem keeps_commitStaged {P : Prop} : (owning C own keys).Keeps P commitStaged (fun _ => P) := by
  unfold commitStaged
  refine keeps_get_bind fun s hs => ?_
  have held : C → s.staged.Owns own := fun hc => (hs.owns hc).staged
  refine Assertion.keeps_bind (keeps_modify fun s' hs' => hs'.of_keys rfl fun _ hso =>
    hso.with_staged Staged.owns_empty) fun _ => ?_
  -- new entries, then value updates, tag additions and tag removals, each under its own key
  refine Assertion.keeps_bind (Assertion.keeps_foldlM_of (fun r e he => ?_) _) fun r => ?_
  · exact Assertion.keeps_bind (keeps_onStore fun hc _ _ _ hst h =>
      EntryStore.owns_insert hst ((held hc).newEntries e he) h) fun _ =>
      keeps_fire (g := fun wakes =>
        ({ committed := r.committed + 1, wakes := r.wakes ++ wakes } : CloseReport))
  refine Assertion.keeps_bind (Assertion.keeps_foldlM_of (fun r p _ => ?_) _) fun r => ?_
  · obtain ⟨k, v⟩ := p
    exact Assertion.keeps_bind (keeps_onStore fun _ _ _ _ => EntryStore.owns_setValue) fun b => by
      split <;> exact Assertion.keeps_pure id
  refine Assertion.keeps_bind (Assertion.keeps_foldlM_of (fun r p _ => ?_) _) fun r => ?_
  · obtain ⟨k, t⟩ := p
    refine keeps_get_bind fun _ _ => ?_
    split
    · exact Assertion.keeps_bind (keeps_onStore fun _ _ _ _ => EntryStore.owns_addTag) fun _ =>
        Assertion.keeps_pure id
    · exact Assertion.keeps_pure id
  refine Assertion.keeps_foldlM_of (fun r p _ => ?_) _
  obtain ⟨k, t⟩ := p
  exact Assertion.keeps_bind (keeps_modify fun s hs => hs.of_keys rfl fun _ hso =>
    hso.with_store (EntryStore.owns_removeTag hso.store)) fun _ => Assertion.keeps_pure id

end Shard

end ShardStore
