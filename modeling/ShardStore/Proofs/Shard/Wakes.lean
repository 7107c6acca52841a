import ShardStore.Proofs.Shard.Waiting
import ShardStore.Proofs.Store.Accounting
import ShardStore.Shard.Process
/-!
No wake is missed, and none is given twice.

The waiters of a shard are sound when the table is well formed and no waiter waits on a key the
store holds. A shard `Follows` an earlier one when every key the earlier one held is held still,
every waiter pending then is pending still or has its key held now, and sound waiters have stayed
sound. Every shard operation ends, finished or failed, in a shard that follows the one it started
from: the two places that create keys, applying a new entry and committing the held ones, fire
the table on each key they insert, and a subscription looks at the store before it registers.

What the operations hand back is exact. A subscription wakes at once exactly when its key is
held, and otherwise adds its waiter to the pending ones, once. Applying a new entry hands back
the wakes of the waiters pending on its key, and committing hands back those of the waiters
pending on the keys of the held entries; in both cases those waiters, and only those, leave the
table, and their keys are held from then on, so no later insert wakes them again.
-/

namespace ShardStore

namespace EntryStore

variable {s s' : EntryStore}

theorem contains_iff {k : Key} : s.contains k = true ↔ k ∈ s.entries.map (·.key) := by
  simp [contains, get?, List.find?_isSome]

/-- Two stores whose entries have the same keys hold the same keys. -/
theorem contains_of_keys (h : s'.entries.map (·.key) = s.entries.map (·.key)) (k : Key) :
    s'.contains k = s.contains k := by
  rw [Bool.eq_iff_iff, contains_iff, contains_iff, h]

theorem keys_put (e : Entry) (k : Key) :
    ∀ ds : List Entry, k ∈ (put e ds).map (·.key) ↔ k = e.key ∨ k ∈ ds.map (·.key)
  | [] => by simp [put]
  | d :: ds => by
    unfold put
    split
    · simp
    · rename_i heq
      have hed : e.key = d.key := Std.LawfulEqCmp.eq_of_compare heq
      simp [hed]
    · simp only [List.map_cons, List.mem_cons, keys_put e k ds]
      tauto

/-- An insert that goes through adds the entry's key, and no other. -/
theorem contains_insert {e : Entry} {x : InsertOutcome} (h : s.insert e = .ok (x, s'))
    (k : Key) : s'.contains k = true ↔ s.contains k = true ∨ k = e.key := by
  rcases insert_eq_ok h with ⟨-, n, -, rfl⟩ | ⟨⟨old, hold⟩, rfl⟩ | ⟨old, hold, n, -, rfl⟩
  · simp only [contains_iff, keys_put]
    exact or_comm
  · -- nothing to merge: the key was held already
    refine ⟨.inl, fun h => h.elim id fun hk => ?_⟩
    rw [hk, contains, hold]
    rfl
  · have hkey : (old.merge e).1.key = e.key := (Entry.key_merge old e).trans (get?_key hold).2
    simp only [contains_iff, keys_put, hkey]
    exact or_comm

theorem contains_addTag {k : Key} {t : String} {x : Bool} (h : s.addTag k t = .ok (x, s'))
    (j : Key) : s'.contains j = s.contains j := by
  rcases addTag_eq_ok h with rfl | ⟨-, -, -, -, -, rfl⟩
  · rfl
  · exact contains_of_keys (keys_modify (f := fun d => (d.addTag t).1) (fun _ hd => hd) _) j

theorem contains_setValue {k : Key} {v : Bytes} {x : Bool} (h : s.setValue k v = .ok (x, s'))
    (j : Key) : s'.contains j = s.contains j := by
  rcases setValue_eq_ok h with rfl | ⟨-, -, -, -, rfl⟩
  · rfl
  · exact contains_of_keys
      (keys_modify (f := fun d => { d with value := v }) (fun _ hd => hd) _) j

theorem contains_removeTag (s : EntryStore) (k : Key) (t : String) (j : Key) :
    (s.removeTag k t).2.contains j = s.contains j := by
  rcases removeTag_eq s k t with h | ⟨-, -, -, h⟩
  · rw [h]
  · rw [h]
    exact contains_of_keys (keys_modify (f := fun d => (d.removeTag t).1) (fun _ hd => hd) _) j

end EntryStore

namespace Shard

/-- The table is well formed and no waiter waits on a key the store holds. -/
structure WaitersSound (s : Shard) : Prop where
  table : s.waiters.WellFormed
  absent : ∀ p ∈ s.waiters.pending, s.store.contains p.1 = false

/-- `s'` comes after `s` without losing a wake: every key `s` held is held, every waiter pending
in `s` is pending still or has its key held, and sound waiters have stayed sound. -/
structure Follows (s s' : Shard) : Prop where
  committed : ∀ k, s.store.contains k = true → s'.store.contains k = true
  pending : ∀ p ∈ s.waiters.pending, p ∈ s'.waiters.pending ∨ s'.store.contains p.1 = true
  sound : s.WaitersSound → s'.WaitersSound

/-- `s'` has the waiters of `s`, and a store that holds the same keys. -/
structure Alike (s s' : Shard) : Prop where
  waiters : s'.waiters = s.waiters
  contains : ∀ k, s'.store.contains k = s.store.contains k

instance : IsPreorder Shard Follows where
  refl _ := ⟨fun _ h => h, fun _ h => .inl h, id⟩
  trans _ _ _ hab hbc :=
    ⟨fun k h => hbc.committed k (hab.committed k h),
      fun p hp => (hab.pending p hp).elim (hbc.pending p) fun h => .inr (hbc.committed _ h),
      fun h => hbc.sound (hab.sound h)⟩

instance : IsPreorder Shard Alike where
  refl _ := ⟨rfl, fun _ => rfl⟩
  trans _ _ _ hab hbc :=
    ⟨hbc.waiters.trans hab.waiters, fun k => (hbc.contains k).trans (hab.contains k)⟩

variable {s : Shard}

theorem Alike.follows {s' : Shard} (h : Alike s s') : Follows s s' where
  committed k hk := (h.contains k).trans hk
  pending _ hp := .inl (h.waiters ▸ hp)
  sound hs := ⟨h.waiters ▸ hs.table,
    fun p hp => (h.contains p.1).trans (hs.absent p (h.waiters ▸ hp))⟩

/-- Registering a waiter on a key the store lacks loses nothing. -/
theorem follows_register {w sub : Key} {r : Wake} (hw : s.store.contains w = false) :
    Follows s { s with waiters := s.waiters.register w sub r } where
  committed _ h := h
  pending p hp := .inl (Waiters.mem_pending_register.mpr (.inl hp))
  sound hs := ⟨hs.table.register, fun p hp => by
    rcases Waiters.mem_pending_register.mp hp with hp | ⟨hk, -⟩
    · exact hs.absent p hp
    · rw [hk]
      exact hw⟩

/-- Inserting an entry and firing the waiters on its key loses nothing: the waiters that leave
the table wait on the key now held. -/
theorem follows_insertFire {e : Entry} {x : InsertOutcome} {st : EntryStore}
    (hi : s.store.insert e = .ok (x, st)) :
    Follows s { s with store := st, waiters := (s.waiters.fire e.key).2 } where
  committed k h := (EntryStore.contains_insert hi k).mpr (.inl h)
  pending p hp := by
    by_cases hk : p.1 = e.key
    · exact .inr ((EntryStore.contains_insert hi _).mpr (.inr hk))
    · refine .inl ?_
      show p ∈ (s.waiters.fire e.key).2.pending
      rw [Waiters.pending_fire, List.mem_filter]
      exact ⟨hp, by simpa using hk⟩
  sound hs := ⟨hs.table.fire e.key, fun p hp => by
    change p ∈ (s.waiters.fire e.key).2.pending at hp
    rw [Waiters.pending_fire, List.mem_filter] at hp
    have hk : p.1 ≠ e.key := by simpa using hp.2
    -- the key was not held before, and it is not the one inserted
    cases hc : st.contains p.1
    · rfl
    · rcases (EntryStore.contains_insert hi _).mp hc with h | h
      · rw [hs.absent p hp.1] at h
        cases h
      · exact absurd h hk⟩

/-! ### Moves within a preorder -/

/-- Shards reached from `s₀` by moves within `R`. -/
def within (R : Shard → Shard → Prop) (s₀ : Shard) : Assertion Shard where
  holds P s := R s₀ s ∧ P
  weaken h hs := ⟨hs.1, h hs.2⟩

namespace Within

variable {R : Shard → Shard → Prop} [IsPreorder Shard R] {s₀ : Shard} {P : Prop} {α : Type}

omit [IsPreorder Shard R] in
theorem keeps_get_bind {f : Shard → ShardOp α} {Q : α → Prop}
    (h : ∀ s, R s₀ s → (within R s₀).Keeps P (f s) Q) : (within R s₀).Keeps P (get >>= f) Q :=
  fun F s hs => h s hs.1 F s hs

theorem keeps_set {s s' : Shard} (h₀ : R s₀ s) (h : R s s') :
    (within R s₀).Keeps P (set s' : ShardOp PUnit) (fun _ => P) :=
  fun _ _ hs => ⟨trans_of R h₀ h, hs.2⟩

theorem keeps_modify {f : Shard → Shard} (hf : ∀ s, R s (f s)) :
    (within R s₀).Keeps P (modify f : ShardOp PUnit) (fun _ => P) :=
  fun _ s hs => ⟨trans_of R hs.1 (hf s), hs.2⟩

theorem keeps_onStore {f : EntryStore → Outcome (α × EntryStore)}
    (hf : ∀ s x st, f s.store = .ok (x, st) → R s { s with store := st }) :
    (within R s₀).Keeps P (onStore f) (fun _ => P) := by
  unfold onStore
  refine keeps_get_bind fun s h₀ => ?_
  split
  · rename_i x st hst
    exact Assertion.keeps_bind (keeps_set h₀ (hf s x st hst)) fun _ => Assertion.keeps_pure id
  · exact Assertion.keeps_throw _

/-- A transition whose every run ends within `R` of where it started. -/
theorem keeps_of_run {x : ShardOp α} (h : ∀ s, R s (endState (x s))) :
    (within R s₀).Keeps P x (fun _ => P) := by
  intro F s hs
  have hend := trans_of R hs.1 (h s)
  cases hxs : x s with
  | ok a s' =>
    rw [hxs] at hend
    exact ⟨hend, hs.2⟩
  | error e s' =>
    rw [hxs] at hend
    exact ⟨hend, hs.2.1⟩

/-- A transition kept within `R` from every start ends every run within `R` of its start. -/
theorem run_of_keeps {x : ShardOp α} {Q : α → Prop} (h : ∀ s₁, (within R s₁).Keeps True x Q)
    (s : Shard) : R s (endState (x s)) :=
  ((h s).holds_end ⟨refl_of R s, trivial⟩).1

/-- What is kept within a smaller preorder from every start is kept within a larger one. -/
theorem keeps_mono {R' : Shard → Shard → Prop} [IsPreorder Shard R'] (hR : ∀ a b, R' a b → R a b)
    {x : ShardOp α} {Q : α → Prop} (h : ∀ s₁, (within R' s₁).Keeps P x Q) :
    (within R s₀).Keeps P x Q := by
  intro F s hs
  have hx := h s F s ⟨refl_of R' s, hs.2⟩
  cases hxs : x s with
  | ok a s' =>
    rw [hxs] at hx
    exact ⟨trans_of R hs.1 (hR _ _ hx.1), hx.2⟩
  | error e s' =>
    rw [hxs] at hx
    exact ⟨trans_of R hs.1 (hR _ _ hx.1), hx.2⟩

/-- A transition kept within `R` from every start, as a triple on one start: it ends within
`R` of it, finished or failed. -/
theorem triple {x : ShardOp α} {Q : α → Prop} (h : ∀ s₁, (within R s₁).Keeps P x Q) (hp : P)
    (s : Shard) : Triple (· = s) x (fun a s' => R s s' ∧ Q a) (R s) := by
  intro s' hs'
  subst hs'
  have hx := h s' True s' ⟨refl_of R s', trivial, hp⟩
  cases hxs : x s' with
  | ok a s'' =>
    rw [hxs] at hx
    exact ⟨hx.1, hx.2.2⟩
  | error e s'' =>
    rw [hxs] at hx
    exact hx.1

end Within

/-! ### Runs -/

theorem bind_run {α β : Type} {x : ShardOp α} {f : α → ShardOp β} {s s' : Shard} {a : α}
    (h : x s = .ok a s') : (x >>= f) s = f a s' := by
  show EStateM.bind x f s = _
  simp only [EStateM.bind, h]

theorem assignKey_run (e : Entry) (s : Shard) :
    assignKey e s = .ok { e with key := (s.keys.assign e.key).1 }
      { s with keys := (s.keys.assign e.key).2 } := rfl

/-- Inserting an entry, then firing the waiters on its key: the store and the table change
together, or the insert fails and nothing changes. -/
theorem insertFire_run {β : Type} (e : Entry) (g : List Mutation → β) (s : Shard) :
    (do
      let _ ← onStore (·.insert e)
      let s ← get
      let (wakes, waiters) := s.waiters.fire e.key
      set { s with waiters }
      pure (g wakes) : ShardOp β) s =
    match s.store.insert e with
    | .ok (_, st) => .ok (g (s.waiters.fire e.key).1)
        { s with store := st, waiters := (s.waiters.fire e.key).2 }
    | .error f => .error f s := by
  cases hi : s.store.insert e with
  | ok p =>
    obtain ⟨x, st⟩ := p
    simp only [onStore, hi, bind, EStateM.bind, get, getThe, MonadStateOf.get, EStateM.get, set,
      EStateM.set, pure, EStateM.pure]
  | error f =>
    simp only [onStore, hi, bind, EStateM.bind, get, getThe, MonadStateOf.get, EStateM.get,
      throw, throwThe, MonadExceptOf.throw, EStateM.throw]

/-- Applying a new entry: it gets its key, then goes in and fires the waiters on its key. -/
theorem apply_addEntry_run (e : Entry) (s : Shard) :
    apply (.addEntry e) s =
      match s.store.insert { e with key := (s.keys.assign e.key).1 } with
      | .ok (_, st) => .ok (s.waiters.fire (s.keys.assign e.key).1).1
          { s with keys := (s.keys.assign e.key).2, store := st,
                   waiters := (s.waiters.fire (s.keys.assign e.key).1).2 }
      | .error f => .error f { s with keys := (s.keys.assign e.key).2 } :=
  (bind_run (assignKey_run e s)).trans (insertFire_run _ id _)

theorem subscribe_held {s : Shard} {sub w : Key} {r : Wake} (hw : s.store.contains w = true) :
    subscribe sub w r s = .ok (some (Mutation.ofWake sub r)) s := by
  simp only [subscribe, hw, bind, EStateM.bind, get, getThe, MonadStateOf.get, EStateM.get,
    ↓reduceIte, pure, EStateM.pure]

theorem subscribe_absent {s : Shard} {sub w : Key} {r : Wake} (hw : s.store.contains w = false) :
    subscribe sub w r s = .ok none { s with waiters := s.waiters.register w sub r } := by
  simp only [subscribe, hw, bind, EStateM.bind, get, getThe, MonadStateOf.get, EStateM.get,
    Bool.false_eq_true, ↓reduceIte, set, EStateM.set, pure, EStateM.pure]

/-! ### Committing -/

/-- Filtering by `p` or `q` keeps what `p` keeps, and what `q` keeps of the rest. -/
theorem perm_filter_or {α : Type} (p q : α → Bool) : ∀ l : List α,
    List.Perm (l.filter p ++ (l.filter fun a => !p a).filter q) (l.filter fun a => p a || q a)
  | [] => .refl _
  | a :: l => by
    have ih := perm_filter_or p q l
    cases hp : p a
    · cases hq : q a
      · simpa [List.filter_cons, hp, hq] using ih
      · simp only [List.filter_cons, hp, hq, Bool.not_false, Bool.false_or, ↓reduceIte]
        exact List.perm_middle.trans (ih.cons a)
    · simpa [List.filter_cons, hp] using ih.cons a

/-- Partway through committing from `s`, with the entries of the keys `K` inserted: the keys of
`K` are held, the waiters that were pending on them have left the table, and the report `r`
carries their wakes. -/
structure Committed (s : Shard) (K : List Key) (r : CloseReport) (s' : Shard) : Prop where
  follows : s.Follows s'
  held : ∀ k ∈ K, s'.store.contains k = true
  pending : s'.waiters.pending = s.waiters.pending.filter fun p => p.1 ∉ K
  wakes : s.WaitersSound →
    List.Perm r.wakes (Waiters.wakes (s.waiters.pending.filter fun p => p.1 ∈ K))

section Committing

variable {s s' s'' : Shard} {K : List Key} {r c : CloseReport}

theorem Committed.alike (h : Committed s K r s') (ha : Alike s' s'') (hw : c.wakes = r.wakes) :
    Committed s K c s'' where
  follows := trans_of Follows h.follows ha.follows
  held k hk := (ha.contains k).trans (h.held k hk)
  pending := ha.waiters ▸ h.pending
  wakes hs := hw ▸ h.wakes hs

/-- Committing one more new entry: its key joins the keys inserted. -/
theorem committed_insertFire (e : Entry) :
    Triple (Committed s K r) (do
      let _ ← onStore (·.insert e)
      let s ← get
      let (wakes, waiters) := s.waiters.fire e.key
      set { s with waiters }
      pure ({ committed := r.committed + 1, wakes := r.wakes ++ wakes } : CloseReport) :
        ShardOp CloseReport)
      (fun c => Committed s (K ++ [e.key]) c) s.Follows := by
  intro s' hs'
  refine (congrArg (Meets _ _) (insertFire_run e
    (fun w => ({ committed := r.committed + 1, wakes := r.wakes ++ w } : CloseReport)) s')).mpr ?_
  cases hi : s'.store.insert e with
  | error f => exact hs'.follows
  | ok p =>
    obtain ⟨x, st⟩ := p
    have hnew := EntryStore.contains_insert hi
    refine ⟨trans_of Follows hs'.follows (follows_insertFire hi), fun k hk => ?_, ?_, fun hs => ?_⟩
    · rcases List.mem_append.mp hk with hk | hk
      · exact (hnew k).mpr (.inl (hs'.held k hk))
      · exact (hnew k).mpr (.inr (List.mem_singleton.mp hk))
    · show (s'.waiters.fire e.key).2.pending = _
      rw [Waiters.pending_fire, hs'.pending, List.filter_filter]
      refine List.filter_congr fun p _ => ?_
      simp [and_comm]
    · -- the wakes fired now are those of the waiters left on the key
      show List.Perm (r.wakes ++ (s'.waiters.fire e.key).1) _
      rw [Waiters.fire_wakes (hs'.follows.sound hs).table, hs'.pending]
      refine ((hs'.wakes hs).append_right _).trans ?_
      rw [Waiters.wakes, Waiters.wakes, Waiters.wakes, ← List.map_append]
      refine List.Perm.map _ ?_
      have hor := perm_filter_or (fun p : Key × Waiter => decide (p.1 ∈ K))
        (fun p => decide (p.1 = e.key)) s.waiters.pending
      simp only [List.mem_append, List.mem_singleton, Bool.decide_or, decide_not]
      exact hor

/-- Committing from `s` ends in a shard that follows `s`, finished or failed. Finished, it has
inserted the held new entries, and handed back the wakes of the waiters pending on their keys,
which have left the table. -/
theorem commitStaged_triple (s : Shard) :
    Triple (· = s) commitStaged
      (fun r s' => Committed s (s.staged.newEntries.map (·.key)) r s') s.Follows := by
  unfold commitStaged
  refine Triple.get_bind fun s₁ hs₁ => ?_
  subst s₁
  -- nothing is held any more, and nothing else changed
  refine Triple.bind (R := fun _ s' => Committed s [] ⟨0, []⟩ s') (Triple.modify fun s' hs' => ?_)
    fun _ => ?_
  · subst s'
    refine ⟨Alike.follows ⟨rfl, fun _ => rfl⟩, fun _ h => absurd h List.not_mem_nil, by simp,
      fun _ => ?_⟩
    simp [Waiters.wakes]
  refine Triple.bind (Triple.foldlM (fun done r s' => Committed s (done.map (·.key)) r s')
    (fun done r e => ?_) _ [] _) fun r => ?_
  · rw [List.map_append, List.map_singleton]
    exact committed_insertFire e
  -- value updates, tag additions and tag removals keep the keys, the table and the wakes
  intro s' hs'
  rw [List.nil_append] at hs'
  refine Triple.meets_mono (Within.triple (R := Alike) (P := True ∧ r.wakes = r.wakes)
    (Q := fun c => True ∧ c.wakes = r.wakes) ?_ ⟨trivial, rfl⟩ s' s' rfl)
    (fun c s'' h => hs'.alike h.1 h.2.2) fun s'' h => trans_of Follows hs'.follows h.follows
  intro s₁
  refine Assertion.keeps_bind (Assertion.keeps_foldlM (I := fun c => c.wakes = r.wakes)
    (fun r' p _ => ?_) r) fun r' => ?_
  · obtain ⟨k, v⟩ := p
    exact Assertion.keeps_bind (Within.keeps_onStore fun _ _ _ h =>
      ⟨rfl, EntryStore.contains_setValue h⟩) fun _ => by
        split <;> exact Assertion.keeps_pure id
  refine Assertion.keeps_bind (Assertion.keeps_foldlM (I := fun c => c.wakes = r.wakes)
    (fun r' p _ => ?_) r') fun r' => ?_
  · obtain ⟨k, t⟩ := p
    refine Within.keeps_get_bind fun _ _ => ?_
    split
    · exact Assertion.keeps_bind (Within.keeps_onStore fun _ _ _ h =>
        ⟨rfl, EntryStore.contains_addTag h⟩) fun _ => Assertion.keeps_pure id
    · exact Assertion.keeps_pure id
  refine Assertion.keeps_foldlM (I := fun c => c.wakes = r.wakes) (fun r' p _ => ?_) r'
  obtain ⟨k, t⟩ := p
  exact Assertion.keeps_bind (Within.keeps_modify fun s =>
    ⟨rfl, EntryStore.contains_removeTag s.store k t⟩) fun _ => Assertion.keeps_pure id

end Committing

/-! ### Every operation follows -/

namespace Follows

variable {s₀ : Shard} {P : Prop}

theorem keeps_assignKey {e : Entry} : (within Follows s₀).Keeps P (assignKey e) (fun _ => P) :=
  Within.keeps_of_run fun s => by
    rw [assignKey_run]
    exact Alike.follows ⟨rfl, fun _ => rfl⟩

theorem keeps_subscribe {sub w : Key} {r : Wake} :
    (within Follows s₀).Keeps P (subscribe sub w r) (fun _ => P) := by
  unfold subscribe
  refine Within.keeps_get_bind fun s h₀ => ?_
  split
  · exact Assertion.keeps_pure id
  · rename_i hw
    exact Assertion.keeps_bind (Within.keeps_set h₀ (follows_register (by simpa using hw)))
      fun _ => Assertion.keeps_pure id

theorem keeps_insertFire {β : Type} {e : Entry} {g : List Mutation → β} :
    (within Follows s₀).Keeps P (do
      let _ ← onStore (·.insert e)
      let s ← get
      let (wakes, waiters) := s.waiters.fire e.key
      set { s with waiters }
      pure (g wakes) : ShardOp β) (fun _ => P) :=
  Within.keeps_of_run fun s => by
    rw [insertFire_run]
    cases hi : s.store.insert e with
    | ok p =>
      obtain ⟨x, st⟩ := p
      exact follows_insertFire hi
    | error f => exact refl_of Follows s

theorem keeps_apply (m : Mutation) : (within Follows s₀).Keeps P (apply m) (fun _ => P) := by
  cases m with
  | addEntry e => exact Assertion.keeps_bind keeps_assignKey fun _ => keeps_insertFire (g := id)
  | addTag k t =>
    exact Assertion.keeps_bind (Within.keeps_onStore fun _ _ _ h =>
      Alike.follows ⟨rfl, EntryStore.contains_addTag h⟩) fun _ => Assertion.keeps_pure id
  | removeTag k t =>
    exact Assertion.keeps_bind (Within.keeps_modify fun s =>
      Alike.follows ⟨rfl, EntryStore.contains_removeTag s.store k t⟩) fun _ =>
        Assertion.keeps_pure id
  | updateValue k v =>
    exact Assertion.keeps_bind (Within.keeps_onStore fun _ _ _ h =>
      Alike.follows ⟨rfl, EntryStore.contains_setValue h⟩) fun _ => Assertion.keeps_pure id
  | subscribe sub w r =>
    exact Assertion.keeps_bind keeps_subscribe fun _ => Assertion.keeps_pure id

/-- The work list of `applyLocal`, by induction on the fuel: each turn applies one mutation. -/
theorem keeps_applyLocal_go :
    ∀ (ms : List Mutation) (fuel : Nat),
      (within Follows s₀).Keeps P (applyLocal.go ms fuel) (fun _ => P)
  | [], 0 | [], _ + 1 | _ :: _, 0 => Assertion.keeps_pure id
  | m :: rest, fuel + 1 =>
    Assertion.keeps_bind (keeps_apply m) fun more =>
      keeps_applyLocal_go (more.reverse ++ rest) fuel

theorem keeps_applyLocal (m : Mutation) :
    (within Follows s₀).Keeps P (applyLocal m) (fun _ => P) :=
  Within.keeps_get_bind fun _ _ => keeps_applyLocal_go [m] _

theorem keeps_stage (m : Mutation) : (within Follows s₀).Keeps P (stage m) (fun _ => P) := by
  unfold stage
  extract_lets hold
  -- a subscription handed back wakes at once, its wake held, or waits
  have hhold : ∀ m', (within Follows s₀).Keeps P (hold m') (fun _ => P) := by
    intro m'
    simp only [hold]
    refine Within.keeps_get_bind fun s h₀ => ?_
    have hheld : Alike s { s with staged := (s.staged.stage m').1 } := ⟨rfl, fun _ => rfl⟩
    have hset := Within.keeps_set (P := P) h₀ hheld.follows
    split
    · refine Assertion.keeps_bind hset fun _ => ?_
      refine Assertion.keeps_bind keeps_subscribe fun o => ?_
      split
      · exact Within.keeps_modify fun _ => Alike.follows ⟨rfl, fun _ => rfl⟩
      · exact Assertion.keeps_pure id
    · exact Assertion.keeps_bind hset fun _ => Assertion.keeps_pure id
  split
  · exact Assertion.keeps_bind keeps_assignKey fun _ =>
      Assertion.keeps_bind (Assertion.keeps_pure id) hhold
  · exact Assertion.keeps_bind (Assertion.keeps_pure id) hhold

theorem keeps_commitStaged : (within Follows s₀).Keeps P commitStaged (fun _ => P) :=
  Within.keeps_of_run fun s => by
    have h := commitStaged_triple s s rfl
    cases hc : commitStaged s with
    | ok r s' =>
      rw [hc] at h
      exact h.follows
    | error f s' =>
      rw [hc] at h
      exact h

theorem keeps_stageClose : (within Follows s₀).Keeps P stageClose (fun _ => P) :=
  Assertion.keeps_bind keeps_commitStaged fun _ =>
    Assertion.keeps_bind (Assertion.keeps_forM fun m _ => keeps_applyLocal m) fun _ =>
      Assertion.keeps_pure id

theorem keeps_importDb {name : String} {bs : Bytes} :
    (within Follows s₀).Keeps P (importDb name bs) (fun _ => P) := by
  unfold importDb
  extract_lets add read
  -- the entries read are added one by one
  have hadd : ∀ es, (within Follows s₀).Keeps P (add es) (fun _ => P) := by
    intro es
    simp only [add]
    exact Assertion.keeps_bind (Assertion.keeps_forM fun _ _ => keeps_applyLocal _) fun _ =>
      Assertion.keeps_pure id
  have hread : ∀ u, (within Follows s₀).Keeps P (read u) (fun _ => P) := by
    intro u
    simp only [read]
    split
    · exact Assertion.keeps_bind (Assertion.keeps_pure id) hadd
    · exact Assertion.keeps_bind (Assertion.keeps_throw _) hadd
  split
  · exact Assertion.keeps_bind (Assertion.keeps_throw _) hread
  · exact hread ()

end Follows

/-! ### What is handed back -/

section Yields

variable {s s' : Shard}

/-- A subscription wakes at once exactly when its key is held; otherwise it adds its waiter to
the pending ones, once, and leaves the store as it was. -/
theorem subscribe_wakes (s : Shard) (sub w : Key) (r : Wake) :
    (s.store.contains w = true ∧ subscribe sub w r s = .ok (some (Mutation.ofWake sub r)) s) ∨
    (s.store.contains w = false ∧ ∃ s', subscribe sub w r s = .ok none s' ∧ s'.store = s.store ∧
      ∀ p, p ∈ s'.waiters.pending ↔ p ∈ s.waiters.pending ∨ p = (w, ⟨sub, r⟩)) := by
  cases hw : s.store.contains w
  · refine .inr ⟨rfl, _, subscribe_absent hw, rfl, fun p => ?_⟩
    obtain ⟨j, y⟩ := p
    rw [Waiters.mem_pending_register, Prod.mk.injEq]
  · exact .inl ⟨rfl, subscribe_held hw⟩

/-- Applying a new entry that goes in: its key is held, it hands back the wakes of exactly the
waiters pending on its key, and those leave the table. -/
theorem apply_addEntry_wakes (hs : s.WaitersSound) {e : Entry} {ms : List Mutation}
    (h : apply (.addEntry e) s = .ok ms s') :
    s'.store.contains (s.keys.assign e.key).1 = true ∧
    ms = Waiters.wakes (s.waiters.pending.filter (·.1 = (s.keys.assign e.key).1)) ∧
    s'.waiters.pending = s.waiters.pending.filter (·.1 ≠ (s.keys.assign e.key).1) := by
  rw [apply_addEntry_run] at h
  split at h
  · rename_i x st hi
    cases h
    exact ⟨(EntryStore.contains_insert hi _).mpr (.inr rfl), Waiters.fire_wakes hs.table _,
      Waiters.pending_fire _ _⟩
  · cases h

/-- Committing that finishes: the keys of the held new entries are held, the report hands back
the wakes of exactly the waiters pending on them, and those leave the table. -/
theorem commitStaged_wakes (hs : s.WaitersSound) {r : CloseReport}
    (h : commitStaged s = .ok r s') :
    (∀ e ∈ s.staged.newEntries, s'.store.contains e.key = true) ∧
    List.Perm r.wakes (Waiters.wakes
      (s.waiters.pending.filter fun p => p.1 ∈ s.staged.newEntries.map (·.key))) ∧
    s'.waiters.pending =
      s.waiters.pending.filter fun p => p.1 ∉ s.staged.newEntries.map (·.key) := by
  have hc := commitStaged_triple s s rfl
  rw [h] at hc
  exact ⟨fun e he => hc.held _ (List.mem_map_of_mem he), hc.wakes hs, hc.pending⟩

end Yields

/-! ### Reachable shards -/

/-- A call a shard takes. -/
inductive Call where
  | apply (m : Mutation)
  | applyLocal (m : Mutation)
  | addEntry (e : Entry)
  | subscribe (sub w : Key) (r : Wake)
  | stage (m : Mutation)
  | commitStaged
  | stageClose
  | importDb (name : String) (bs : Bytes)

/-- The shard a call leaves, whether it finished or failed. -/
def Call.run : Call → Shard → Shard
  | .apply m, s => endState (Shard.apply m s)
  | .applyLocal m, s => endState (Shard.applyLocal m s)
  | .addEntry e, s => endState (Shard.addEntry e s)
  | .subscribe sub w r, s => endState (Shard.subscribe sub w r s)
  | .stage m, s => endState (Shard.stage m s)
  | .commitStaged, s => endState (Shard.commitStaged s)
  | .stageClose, s => endState (Shard.stageClose s)
  | .importDb name bs, s => endState (Shard.importDb name bs s)

/-- Every call, finished or failed, leaves a shard that follows the one it started from. -/
theorem Call.follows (c : Call) (s : Shard) : s.Follows (c.run s) := by
  cases c with
  | apply m => exact Within.run_of_keeps (fun _ => Follows.keeps_apply m) s
  | applyLocal m => exact Within.run_of_keeps (fun _ => Follows.keeps_applyLocal m) s
  | addEntry e => exact Within.run_of_keeps (fun _ => Follows.keeps_applyLocal _) s
  | subscribe sub w r => exact Within.run_of_keeps (fun _ => Follows.keeps_subscribe) s
  | stage m => exact Within.run_of_keeps (fun _ => Follows.keeps_stage m) s
  | commitStaged => exact Within.run_of_keeps (fun _ => Follows.keeps_commitStaged) s
  | stageClose => exact Within.run_of_keeps (fun _ => Follows.keeps_stageClose) s
  | importDb name bs => exact Within.run_of_keeps (fun _ => Follows.keeps_importDb) s

/-- The shards reached from a new one by calls, finished or failed. -/
inductive Reachable : Shard → Prop
  | new (store : EntryStore) (catalog : Catalog) (keys : KeySource) :
      Reachable (Shard.make store catalog keys)
  | step {s : Shard} (c : Call) : Reachable s → Reachable (c.run s)

/-- A new shard has no waiters, and every call keeps the waiters sound. -/
theorem Reachable.sound {s : Shard} (h : Reachable s) : s.WaitersSound := by
  induction h with
  | new store catalog keys =>
    exact ⟨Waiters.wellFormed_empty, fun _ h => absurd h List.not_mem_nil⟩
  | step c _ ih => exact (c.follows _).sound ih

end Shard

open Shard in
/-- In every shard reached by calls, finished or failed, no waiter is pending twice and none
waits on a key the store holds, and every call keeps the keys held and each pending waiter
pending until its key is held. A subscription wakes at once exactly when its key is held and
otherwise adds its waiter, once; applying a new entry and committing the held ones hand back
exactly the wakes of the waiters pending on the keys they insert, and those waiters leave. -/
theorem reachable_wakes_once {s : Shard} (h : Reachable s) :
    s.waiters.pending.Nodup ∧ (∀ p ∈ s.waiters.pending, s.store.contains p.1 = false) ∧
    (∀ c : Shard.Call, s.Follows (c.run s)) ∧
    (∀ sub w r,
      (s.store.contains w = true ∧ subscribe sub w r s = .ok (some (Mutation.ofWake sub r)) s) ∨
      (s.store.contains w = false ∧ ∃ s', subscribe sub w r s = .ok none s' ∧
        s'.store = s.store ∧
        ∀ p, p ∈ s'.waiters.pending ↔ p ∈ s.waiters.pending ∨ p = (w, ⟨sub, r⟩))) ∧
    (∀ e ms s', apply (.addEntry e) s = .ok ms s' →
      s'.store.contains (s.keys.assign e.key).1 = true ∧
      ms = Waiters.wakes (s.waiters.pending.filter (·.1 = (s.keys.assign e.key).1)) ∧
      s'.waiters.pending = s.waiters.pending.filter (·.1 ≠ (s.keys.assign e.key).1)) ∧
    (∀ r s', commitStaged s = .ok r s' →
      (∀ e ∈ s.staged.newEntries, s'.store.contains e.key = true) ∧
      List.Perm r.wakes (Waiters.wakes
        (s.waiters.pending.filter fun p => p.1 ∈ s.staged.newEntries.map (·.key))) ∧
      s'.waiters.pending =
        s.waiters.pending.filter fun p => p.1 ∉ s.staged.newEntries.map (·.key)) := by
  have hs := h.sound
  exact ⟨hs.table.nodup_pending, hs.absent, fun c => c.follows s, subscribe_wakes s,
    fun _ _ _ => apply_addEntry_wakes hs, fun _ _ => commitStaged_wakes hs⟩

open Shard in
/-- A subscriber waits on a key no entry has; the entry comes and wakes it. -/
theorem reachable_wakes_once_woken :
    let s := (Shard.Call.apply (.addEntry ⟨⟨1, 0, 0⟩, ⟨[]⟩, []⟩)).run
      ((Shard.Call.subscribe ⟨2, 0, 0⟩ ⟨1, 0, 0⟩ (.addTag "awake")).run
        (make (EntryStore.withLimit none) default default))
    Reachable s ∧
    s.waiters.pending.Nodup ∧ (∀ p ∈ s.waiters.pending, s.store.contains p.1 = false) ∧
    (∀ c : Shard.Call, s.Follows (c.run s)) ∧
    (∀ sub w r,
      (s.store.contains w = true ∧ subscribe sub w r s = .ok (some (Mutation.ofWake sub r)) s) ∨
      (s.store.contains w = false ∧ ∃ s', subscribe sub w r s = .ok none s' ∧
        s'.store = s.store ∧
        ∀ p, p ∈ s'.waiters.pending ↔ p ∈ s.waiters.pending ∨ p = (w, ⟨sub, r⟩))) ∧
    (∀ e ms s', apply (.addEntry e) s = .ok ms s' →
      s'.store.contains (s.keys.assign e.key).1 = true ∧
      ms = Waiters.wakes (s.waiters.pending.filter (·.1 = (s.keys.assign e.key).1)) ∧
      s'.waiters.pending = s.waiters.pending.filter (·.1 ≠ (s.keys.assign e.key).1)) ∧
    (∀ r s', commitStaged s = .ok r s' →
      (∀ e ∈ s.staged.newEntries, s'.store.contains e.key = true) ∧
      List.Perm r.wakes (Waiters.wakes
        (s.waiters.pending.filter fun p => p.1 ∈ s.staged.newEntries.map (·.key))) ∧
      s'.waiters.pending =
        s.waiters.pending.filter fun p => p.1 ∉ s.staged.newEntries.map (·.key)) := by
  intro s
  have h : Reachable s := .step _ (.step _ (.new _ _ _))
  exact ⟨h, reachable_wakes_once h⟩

end ShardStore
