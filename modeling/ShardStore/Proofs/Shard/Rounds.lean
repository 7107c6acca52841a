import ShardStore.Proofs.Shard.Runs
/-!
One round of single-entry processing on a shard whose store has no limit, as store writes.

A round sweeps, stages what the sweep made and closes the stage. Staging holds new entries
merged by key and every other change in arrival order (`Staged.foldl_stage`). Closing a stage
is then one list of writes: the new entries, then the value updates, tag additions and tag
removals (`Staged.writes`), and after them the wakes the new entries fire
(`Shard.stageClose_writes`). A held change on a key the store lacks is a write that leaves the
store as it is, so nothing is lost by reading every held change as a write. A sweep only ever
appends, so what it made is exactly what its filter runs made (`Shard.mem_sweep`).
-/

namespace ShardStore

namespace Mutation

/-- The entry a mutation adds. -/
def inserted? : Mutation → Option Entry
  | .addEntry e => some e
  | _ => none

/-- The value update a mutation makes. -/
def valueUpdate? : Mutation → Option (Key × Bytes)
  | .updateValue k v => some (k, v)
  | _ => none

/-- The tag a mutation adds. -/
def tagAddition? : Mutation → Option (Key × String)
  | .addTag k t => some (k, t)
  | _ => none

/-- The tag a mutation removes. -/
def tagRemoval? : Mutation → Option (Key × String)
  | .removeTag k t => some (k, t)
  | _ => none

theorem inserted?_eq_some {m : Mutation} {e : Entry} : m.inserted? = some e ↔ m = .addEntry e := by
  cases m <;> simp [inserted?]

theorem valueUpdate?_eq_some {m : Mutation} {p : Key × Bytes} :
    m.valueUpdate? = some p ↔ m = .updateValue p.1 p.2 := by
  cases m <;> simp [valueUpdate?, Prod.ext_iff]

theorem tagAddition?_eq_some {m : Mutation} {p : Key × String} :
    m.tagAddition? = some p ↔ m = .addTag p.1 p.2 := by
  cases m <;> simp [tagAddition?, Prod.ext_iff]

theorem tagRemoval?_eq_some {m : Mutation} {p : Key × String} :
    m.tagRemoval? = some p ↔ m = .removeTag p.1 p.2 := by
  cases m <;> simp [tagRemoval?, Prod.ext_iff]

/-- A mutation a stage holds as it comes: not a subscription, and a new entry already keyed. -/
def Holdable : Mutation → Prop
  | .addEntry e => e.key ≠ Key.unassigned
  | .subscribe .. => False
  | _ => True

end Mutation

namespace Staged

/-- Holding mutations in turn: new entries merged by key, every other change appended. -/
theorem foldl_stage : ∀ (ms : List Mutation) (st : Staged),
    ms.foldl (fun st m => (st.stage m).1) st =
      ⟨(ms.filterMap Mutation.inserted?).foldl (fun ds e => putEntry e ds) st.newEntries,
        st.valueUpdates ++ ms.filterMap Mutation.valueUpdate?,
        st.tagsToAdd ++ ms.filterMap Mutation.tagAddition?,
        st.tagsToRemove ++ ms.filterMap Mutation.tagRemoval?⟩
  | [], st => by simp
  | m :: ms, st => by
    rw [List.foldl_cons, foldl_stage ms]
    cases m <;> simp only [stage, List.filterMap_cons, Mutation.inserted?, Mutation.valueUpdate?,
      Mutation.tagAddition?, Mutation.tagRemoval?, List.foldl_cons, List.append_assoc,
      List.singleton_append]

/-- The writes that commit a stage: its new entries in key order, then its value updates, tag
additions and tag removals in arrival order. -/
def writes (st : Staged) : List EntryStore.Write :=
  st.newEntries.map .insert ++ st.valueUpdates.map (fun p => .setValue p.1 p.2) ++
    st.tagsToAdd.map (fun p => .addTag p.1 p.2) ++ st.tagsToRemove.map (fun p => .removeTag p.1 p.2)

theorem addTag_mem_writes {st : Staged} {k : Key} {t : String} (h : (k, t) ∈ st.tagsToAdd) :
    .addTag k t ∈ st.writes :=
  List.mem_append_left _ (List.mem_append_right _ (List.mem_map.mpr ⟨(k, t), h, rfl⟩))

end Staged

namespace EntryStore

variable {s : EntryStore}

/-- Without a limit a value update goes through, and says whether the key was held. -/
theorem setValue_of_none (hl : s.limit = none) (k : Key) (v : Bytes) :
    s.setValue k v = .ok (s.contains k, (Write.setValue k v).apply s) := by
  cases hd : s.get? k with
  | none => simp [setValue, Write.apply, Write.run, contains, hd, pure, Except.pure, Functor.map,
      Except.map]
  | some d => simp [setValue, Write.apply, Write.run, contains, hd, reserve_of_none hl, pure,
      Except.pure, Functor.map, Except.map, bind, Except.bind]

/-- Without a limit a tag addition goes through. -/
theorem addTag_of_none (hl : s.limit = none) (k : Key) (t : String) :
    ∃ x, s.addTag k t = .ok (x, (Write.addTag k t).apply s) := by
  cases hd : s.get? k with
  | none => exact ⟨false, by simp [addTag, Write.apply, Write.run, hd, pure, Except.pure,
      Functor.map, Except.map]⟩
  | some d =>
    by_cases ht : d.hasTag t
    · exact ⟨false, by simp [addTag, Write.apply, Write.run, hd, ht, pure, Except.pure,
        Functor.map, Except.map]⟩
    · exact ⟨true, by simp [addTag, Write.apply, Write.run, hd, ht, reserve_of_none hl, pure,
        Except.pure, Functor.map, Except.map, bind, Except.bind]⟩

/-- A tag addition on a key the store lacks leaves it as it is. -/
theorem apply_addTag_of_not_contains {k : Key} (hk : s.contains k = false) (t : String) :
    (Write.addTag k t).apply s = s := by
  have hd : s.get? k = none := by simpa [contains] using hk
  simp [addTag, Write.apply, Write.run, hd, pure, Except.pure, Functor.map, Except.map]

/-- A write that changes a held entry in place: a value update, a tag addition or a tag
removal. -/
def Write.InPlace : Write → Prop
  | .addTag .. | .removeTag .. | .setValue .. => True
  | .insert _ | .clear => False

theorem Write.isSome_onKey {w : Write} (hw : w.InPlace) (j : Key) (o : Option Entry) :
    (w.onKey j o).isSome = o.isSome := by
  cases w with
  | insert | clear => exact hw.elim
  | addTag k t | removeTag k t | setValue k t =>
    simp only [onKey]
    split <;> simp

/-- A change in place keeps the keys the store holds. -/
theorem contains_apply_of_inPlace (hl : s.limit = none) {w : Write} (hw : w.InPlace) (j : Key) :
    (w.apply s).contains j = s.contains j := by
  rw [contains, contains, get?_apply hl, Write.isSome_onKey hw]

end EntryStore

namespace Shard

variable {s : Shard}

theorem onStore_run {α : Type} {f : EntryStore → Outcome (α × EntryStore)} {x : α}
    {st : EntryStore} (h : f s.store = .ok (x, st)) :
    onStore f s = .ok x { s with store := st } := by
  simp [onStore, h, bind, EStateM.bind, get, getThe, MonadStateOf.get, EStateM.get, set,
    EStateM.set, pure, EStateM.pure]

/-! ### Staging -/

/-- A held mutation is kept in the stage and nothing else changes. -/
theorem stage_held {m : Mutation} (hm : m.Holdable) (s : Shard) :
    stage m s = .ok () { s with staged := (s.staged.stage m).1 } := by
  cases m with
  | addEntry e => exact stage_addEntry_run hm s
  | subscribe => exact hm.elim
  | addTag | removeTag | updateValue => rfl

theorem forM_stage_held : ∀ (ms : List Mutation) (s : Shard), (∀ m ∈ ms, m.Holdable) →
    ms.forM stage s = .ok () { s with staged := ms.foldl (fun st m => (st.stage m).1) s.staged }
  | [], s, _ => rfl
  | m :: ms, s, hm => by
    show (stage m >>= fun _ => ms.forM stage) s = _
    rw [bind_run (stage_held (hm m List.mem_cons_self) s),
      forM_stage_held ms _ fun m' hm' => hm m' (List.mem_cons_of_mem _ hm')]
    rfl

/-! ### Closing -/

/-- Held changes committed in turn, each one store write that keeps the keys held; the report
counts those on keys the store holds (`counted`). -/
theorem foldlM_keyed_run {α : Type} {step : CloseReport → α → ShardOp CloseReport}
    (w : α → EntryStore.Write) (counted : α → EntryStore → Bool)
    (hc : ∀ a b (st : EntryStore), st.limit = none → counted a ((w b).apply st) = counted a st)
    (hstep : ∀ r a (s : Shard), s.store.limit = none → step r a s =
      .ok (if counted a s.store then { r with committed := r.committed + 1 } else r)
        { s with store := (w a).apply s.store }) :
    ∀ (as : List α) (r : CloseReport) (s : Shard), s.store.limit = none →
      as.foldlM step r s =
        .ok { r with committed := r.committed + (as.filter fun a => counted a s.store).length }
          { s with store := s.store.writeAll (as.map w) }
  | [], r, s, _ => by simp; rfl
  | a :: as, r, s, hl => by
    have hl' : ((w a).apply s.store).limit = none := ((w a).limit_apply s.store).trans hl
    have hcount : (as.filter fun a' => counted a' ((w a).apply s.store)) =
        as.filter fun a' => counted a' s.store :=
      List.filter_congr fun a' _ => hc a' a s.store hl
    show (step r a >>= fun r' => as.foldlM step r') s = _
    rw [bind_run (hstep r a s hl), foldlM_keyed_run w counted hc hstep as _ _ hl']
    simp only [hcount, List.filter_cons, List.map_cons]
    by_cases ha : counted a s.store
    · simp [ha, EntryStore.writeAll]
      omega
    · simp [ha, EntryStore.writeAll]

/-- The shard after closing the stage `st`: its writes, then the wakes of the waiters on the
keys of its new entries, which leave the table. -/
def afterClose (s : Shard) (st : Staged) : Shard :=
  { s with
    staged := Staged.empty,
    store := s.store.writeAll
      (st.writes ++ (commitWakes s.waiters.pending st.newEntries).map (·.2.write)),
    waiters := ⟨s.waiters.byKey.filter fun p => p.1 ∉ st.newEntries.map (·.key)⟩ }

/-- Committing a stage on a store without a limit makes its writes, and hands back the wakes of
the waiters on the keys of its new entries, in the order they fire. -/
theorem commitStaged_writes (hl : s.store.limit = none) (hw : s.waiters.WellFormed) :
    ∃ n, commitStaged s =
      .ok ⟨n, Waiters.wakes (commitWakes s.waiters.pending s.staged.newEntries)⟩
        { s with staged := Staged.empty, store := s.store.writeAll s.staged.writes,
                 waiters := ⟨s.waiters.byKey.filter fun p =>
                   p.1 ∉ s.staged.newEntries.map (·.key)⟩ } := by
  unfold commitStaged
  simp only [bind, EStateM.bind, get, getThe, MonadStateOf.get, EStateM.get, modify, modifyGet,
    MonadStateOf.modifyGet, EStateM.modifyGet]
  -- the four folds in turn: new entries, value updates, tag additions, tag removals
  rw [foldlM_commit_run (fun r e s => ?_) s.staged.newEntries ⟨0, []⟩
    (s := { s with staged := Staged.empty }) hl hw]
  · dsimp only
    rw [foldlM_keyed_run (fun p : Key × Bytes => .setValue p.1 p.2) (fun p st => st.contains p.1)
      (fun a b st hl =>
        EntryStore.contains_apply_of_inPlace (w := .setValue b.1 b.2) hl trivial a.1)
      (fun r a s hl => ?_) _ _ _ ((EntryStore.limit_writeAll _ _).trans hl)]
    · dsimp only
      rw [foldlM_keyed_run (fun p : Key × String => .addTag p.1 p.2) (fun p st => st.contains p.1)
        (fun a b st hl =>
          EntryStore.contains_apply_of_inPlace (w := .addTag b.1 b.2) hl trivial a.1)
        (fun r a s hl => ?_) _ _ _
        ((EntryStore.limit_writeAll _ _).trans ((EntryStore.limit_writeAll _ _).trans hl))]
      · dsimp only
        rw [foldlM_keyed_run (fun p : Key × String => .removeTag p.1 p.2) (fun _ _ => true)
          (fun _ _ _ _ => rfl) (fun r a s _ => ?_)]
        · exact ⟨_, by simp only [Staged.writes, EntryStore.writeAll_append]; rfl⟩
        · simp only [EntryStore.limit_writeAll, hl]
        · rfl
      · by_cases hk : s.store.contains a.1
        · obtain ⟨x, hx⟩ := EntryStore.addTag_of_none hl a.1 a.2
          simp [hk, onStore, hx, bind, EStateM.bind, get, getThe, MonadStateOf.get, EStateM.get,
            set, EStateM.set, pure, EStateM.pure]
        · simp [hk, EntryStore.apply_addTag_of_not_contains (Bool.eq_false_iff.mpr hk), pure,
            EStateM.pure, EStateM.bind, EStateM.get]
    · show (onStore _ >>= _) s = _
      rw [bind_run (onStore_run (f := fun st => st.setValue a.1 a.2)
        (EntryStore.setValue_of_none hl a.1 a.2))]
      by_cases hk : s.store.contains a.1 <;> simp [hk] <;> rfl
  · exact insertFire_run e (fun w => (⟨r.committed + 1, r.wakes ++ w⟩ : CloseReport)) s

/-- Closing the stage on a store without a limit: its writes, then the wakes its new entries
fire, applied in the order they fire. -/
theorem stageClose_writes (hl : s.store.limit = none) (hw : s.waiters.WellFormed) :
    ∃ n, stageClose s = .ok n (s.afterClose s.staged) := by
  obtain ⟨n, hc⟩ := commitStaged_writes hl hw
  refine ⟨n, ?_⟩
  unfold stageClose
  rw [bind_run hc]
  dsimp only
  rw [bind_run (forM_applyLocal_wakes _ ((EntryStore.limit_writeAll _ _).trans hl)),
    afterClose, EntryStore.writeAll_append]
  rfl

theorem commitWakes_nil : ∀ ds : List Entry, commitWakes [] ds = []
  | [] => rfl
  | _ :: ds => by simp [commitWakes, commitWakes_nil ds]

/-- Closing a stage that holds nothing changes nothing. -/
theorem afterClose_empty (he : s.staged = Staged.empty) : s.afterClose Staged.empty = s := by
  obtain ⟨store, staged, waiters, filters, keys⟩ := s
  subst he
  simp only [afterClose, Staged.writes, Staged.empty, List.map_nil, List.append_nil, commitWakes,
    List.not_mem_nil, not_false_eq_true, decide_true, List.filter_true]
  rfl

/-- Staging held mutations into an empty stage, then closing it. -/
theorem stage_then_close (hl : s.store.limit = none) (hw : s.waiters.WellFormed)
    (he : s.staged = Staged.empty) {ms : List Mutation} (hm : ∀ m ∈ ms, m.Holdable) :
    ∃ n, (ms.forM stage >>= fun _ => stageClose) s =
      .ok n (s.afterClose (ms.foldl (fun st m => (st.stage m).1) Staged.empty)) := by
  rw [bind_run (forM_stage_held ms s hm), he]
  exact stageClose_writes (s := { s with staged := _ }) hl hw

/-! ### Sweeping -/

/-- A fold that only counts and appends: each step adds `n a` runs and the mutations `out a`. -/
theorem foldlM_collect {α : Type} {F : Sweep → α → Outcome Sweep} (n : α → Nat)
    (out : α → List Mutation) : ∀ (as : List α),
      (∀ a ∈ as, ∀ w, F w a = .ok ⟨w.runs + n a, w.mutations ++ out a⟩) →
      ∀ w, as.foldlM F w = .ok ⟨w.runs + (as.map n).sum, w.mutations ++ as.flatMap out⟩
  | [], _, w => by simp; rfl
  | a :: as, hF, w => by
    rw [List.foldlM_cons, hF a List.mem_cons_self w]
    show as.foldlM F _ = _
    rw [foldlM_collect n out as (fun a' ha' => hF a' (List.mem_cons_of_mem _ ha'))]
    simp [Nat.add_assoc]

end Shard

/-- What a single-entry filter makes of an entry in a sweep: the mutations of its run when it
applies, and nothing when it does not. -/
def SingleFilter.sweepOutput (f : SingleFilter) (look : Lookup) (e : Entry) : List Mutation :=
  if f.shouldRun e then
    match f.run look e with
    | .ok ms => ms
    | .error _ => []
  else []

namespace Shard

variable {s : Shard}

/-- A sweep whose filter runs all go through collects, entry by entry in key order and filter by
filter in install order, the mutations of every run it starts. -/
theorem sweep_eq {look : Lookup} (hrun : ∀ e ∈ s.store.entries, ∀ f ∈ s.filters.singles,
      f.shouldRun e = true → ∃ ms, f.run look e = .ok ms) :
    s.sweep look = .ok
      ⟨(s.store.entries.map fun e => (s.filters.singles.map fun f =>
          if f.shouldRun e then 1 else 0).sum).sum,
        s.store.entries.flatMap fun e =>
          s.filters.singles.flatMap fun f => f.sweepOutput look e⟩ := by
  unfold sweep
  rw [foldlM_collect (fun e => (s.filters.singles.map fun f => if f.shouldRun e then 1 else 0).sum)
    (fun e => s.filters.singles.flatMap fun f => f.sweepOutput look e) s.store.entries ?_ ⟨0, []⟩]
  · simp
  -- one entry: each installed filter in turn
  intro e he w
  rw [foldlM_collect (fun f => if f.shouldRun e then 1 else 0) (fun f => f.sweepOutput look e)
    s.filters.singles ?_ w]
  intro f hf w
  by_cases hs : f.shouldRun e
  · obtain ⟨ms, hms⟩ := hrun e he f hf hs
    simp [hs, hms, SingleFilter.sweepOutput]
  · simp [hs, SingleFilter.sweepOutput]
    rfl

/-- No installed single-entry filter applies to a stored entry. -/
def Settled (s : Shard) : Prop :=
  ∀ e ∈ s.store.entries, ∀ f ∈ s.filters.singles, f.shouldRun e = false

/-- A sweep of a settled shard starts no run and makes nothing. -/
theorem sweep_settled (h : s.Settled) (look : Lookup) : s.sweep look = .ok ⟨0, []⟩ := by
  rw [sweep_eq fun e he f hf hs => absurd hs (by simp [h e he f hf])]
  have hruns : (s.store.entries.map fun e => (s.filters.singles.map fun f =>
      if f.shouldRun e then 1 else 0).sum).sum = 0 := by
    simp only [List.sum_eq_zero_iff, List.mem_map]
    rintro _ ⟨e, he, rfl⟩
    simp only [List.sum_eq_zero_iff, List.mem_map]
    rintro _ ⟨f, hf, rfl⟩
    simp [h e he f hf]
  have hmade : (s.store.entries.flatMap fun e =>
      s.filters.singles.flatMap fun f => f.sweepOutput look e) = [] :=
    List.flatMap_eq_nil_iff.mpr fun e he => List.flatMap_eq_nil_iff.mpr fun f hf => by
      simp [SingleFilter.sweepOutput, h e he f hf]
  rw [hruns, hmade]

/-! ### A round -/

/-- One round on a store without a limit, from an empty stage: the sweep's mutations are staged
and the stage closed, and the round says whether the sweep made any. -/
theorem processOnce_run (hl : s.store.limit = none) (hw : s.waiters.WellFormed)
    (he : s.staged = Staged.empty) {w : Sweep} (hsw : s.sweep (Lookup.ofStore s.store) = .ok w)
    (hm : ∀ m ∈ w.mutations, m.Holdable) :
    processOnce s = .ok (!w.mutations.isEmpty)
      (s.afterClose (w.mutations.foldl (fun st m => (st.stage m).1) Staged.empty)) := by
  have hlift : lift (s.sweep (Lookup.ofStore s.store)) s = .ok w s := by
    rw [hsw]
    rfl
  obtain ⟨n, hc⟩ := stageClose_writes
    (s := { s with staged := w.mutations.foldl (fun st m => (st.stage m).1) s.staged }) hl hw
  unfold processOnce
  rw [bind_run (show (get : ShardOp Shard) s = .ok s s from rfl), bind_run hlift,
    bind_run (forM_stage_held _ s hm), bind_run hc, he]
  rfl

end Shard

end ShardStore
