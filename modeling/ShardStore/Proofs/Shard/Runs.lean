import ShardStore.Proofs.Store.Merging
import ShardStore.Proofs.Shard.Wakes
import ShardStore.Proofs.Shard.Ownership
/-!
Runs of a shard whose store has no limit, written out.

Without a limit no write is refused, so applying and staging keyed entries always finishes,
and each run is a list of store writes together with a change to the waiter table. Applying a
new entry inserts it, fires the waiters on its key, and applies their wakes, the last fired
first (`directWrites`). Staging new entries merges them under their keys; closing the stage
inserts them in key order, firing the waiters on each key as it goes, and then applies all the
wakes in the order they fired (`commitWakes`). Either way the waiters on the keys added leave
the table and no other waiter does.
-/

namespace ShardStore

/-- The store write a fired waiter makes on its subscriber. -/
def Waiter.write (x : Waiter) : EntryStore.Write :=
  match x.wake with
  | .removeTag t => .removeTag x.subscriber t
  | .addTag t => .addTag x.subscriber t

/-- A wake changes its subscriber's entry only. -/
theorem Waiter.onKey_write_of_ne {x : Waiter} {j : Key} (h : x.subscriber ≠ j)
    (o : Option Entry) :
    x.write.onKey j o = o := by
  obtain ⟨sub, r⟩ := x
  cases r <;> simp [write, EntryStore.Write.onKey, h]

theorem Waiter.tagsAscending_write (x : Waiter) : x.write.TagsAscending := by
  obtain ⟨sub, r⟩ := x
  cases r <;> trivial

namespace Waiters

/-- The count of waiters is the count of pending ones. -/
theorem size_eq_length_pending (w : Waiters) : w.size = w.pending.length := by
  have h : ∀ (l : List (Key × List Waiter)) (n : Nat),
      l.foldl (fun n p => n + p.2.length) n =
        n + (l.flatMap fun p => p.2.map (p.1, ·)).length := by
    intro l
    induction l with
    | nil => simp
    | cons p l ih =>
      intro n
      rw [List.foldl_cons, ih, List.flatMap_cons, List.length_append, List.length_map]
      omega
  exact (h w.byKey 0).trans (Nat.zero_add _)

/-- Firing a key, then the waiters on other keys: the waiters on all of them leave. -/
theorem filter_fire (w : Waiters) (k : Key) (ks : List Key) :
    ((w.fire k).2.byKey.filter fun p => p.1 ∉ ks) = w.byKey.filter fun p => p.1 ∉ k :: ks := by
  simp only [fire, List.filter_filter, List.mem_cons, not_or]
  refine List.filter_congr fun p _ => ?_
  rw [Bool.decide_and, Bool.and_comm]

end Waiters

/-- The writes of applying keyed entries one by one to a store without a limit: each entry is
inserted, then the wakes of the waiters still pending on its key are applied, the last fired
first. -/
def directWrites : List (Key × Waiter) → List Entry → List EntryStore.Write
  | _, [] => []
  | ps, e :: es => .insert e :: ((ps.filter (·.1 = e.key)).map (·.2.write)).reverse ++
      directWrites (ps.filter (·.1 ≠ e.key)) es

/-- The waiters fired by inserting entries in turn, in the order they fire. -/
def commitWakes : List (Key × Waiter) → List Entry → List (Key × Waiter)
  | _, [] => []
  | ps, d :: ds => ps.filter (·.1 = d.key) ++ commitWakes (ps.filter (·.1 ≠ d.key)) ds

theorem EntryStore.writeAll_append (s : EntryStore) (ws ws' : List EntryStore.Write) :
    s.writeAll (ws ++ ws') = (s.writeAll ws).writeAll ws' :=
  List.foldl_append

namespace Shard

variable {s : Shard}

/-! ### Wakes -/

/-- A wake on a store without a limit is one write and causes nothing. -/
theorem apply_wake (hl : s.store.limit = none) (x : Waiter) :
    apply (Mutation.ofWake x.subscriber x.wake) s =
      .ok [] { s with store := x.write.apply s.store } := by
  obtain ⟨sub, r⟩ := x
  cases r with
  | removeTag t => rfl
  | addTag t =>
    cases h : s.store.addTag sub t with
    | error f =>
      obtain ⟨g, r, hr⟩ := EntryStore.addTag_eq_error h
      obtain ⟨L, hL, -⟩ := EntryStore.reserve_eq_error hr
      rw [hl] at hL
      cases hL
    | ok p =>
      simp [apply, Mutation.ofWake, onStore, h, Waiter.write, EntryStore.Write.apply,
        EntryStore.Write.run, bind, EStateM.bind, get, getThe, MonadStateOf.get, EStateM.get, set,
        EStateM.set, pure, EStateM.pure, Functor.map, Except.map]

/-- Wakes on the work list are applied one by one, each causing nothing. -/
theorem applyLocal_go_wakes : ∀ (xs : List Waiter) (fuel : Nat) {s : Shard},
    s.store.limit = none → xs.length ≤ fuel →
      applyLocal.go (xs.map fun x => Mutation.ofWake x.subscriber x.wake) fuel s =
        .ok () { s with store := s.store.writeAll (xs.map Waiter.write) }
  | [], fuel, s, _, _ => by cases fuel <;> rfl
  | x :: xs, fuel + 1, s, hl, hlen => by
    rw [List.map_cons, applyLocal.go]
    simp only [bind, EStateM.bind, apply_wake hl, List.reverse_nil, List.nil_append]
    rw [applyLocal_go_wakes xs fuel ((x.write.limit_apply s.store).trans hl)
      (by simpa using hlen)]
    rfl

/-- A wake applied on its own. -/
theorem applyLocal_wake (hl : s.store.limit = none) (x : Waiter) :
    applyLocal (Mutation.ofWake x.subscriber x.wake) s =
      .ok () { s with store := x.write.apply s.store } := by
  unfold applyLocal
  simp only [bind, EStateM.bind, get, getThe, MonadStateOf.get, EStateM.get]
  exact applyLocal_go_wakes [x] _ hl (by simp)

/-- The wakes of pending waiters applied in turn. -/
theorem forM_applyLocal_wakes : ∀ (ps : List (Key × Waiter)) {s : Shard},
    s.store.limit = none →
      (Waiters.wakes ps).forM applyLocal s =
        .ok () { s with store := s.store.writeAll (ps.map (·.2.write)) }
  | [], _, _ => rfl
  | p :: ps, s, hl => by
    show (applyLocal _ >>= fun _ => (Waiters.wakes ps).forM applyLocal) s = _
    rw [bind_run (applyLocal_wake hl p.2)]
    exact (forM_applyLocal_wakes ps ((p.2.write.limit_apply s.store).trans hl)).trans rfl

/-! ### Applying new entries -/

/-- Applying a keyed entry to a shard without a limit inserts it, fires the waiters on its key,
and applies their wakes, the last fired first. -/
theorem addEntry_run (hl : s.store.limit = none) (hw : s.waiters.WellFormed) {e : Entry}
    (hk : e.key ≠ Key.unassigned) :
    addEntry e s = .ok () { s with
      store := s.store.writeAll (.insert e ::
        ((s.waiters.pending.filter (·.1 = e.key)).map (·.2.write)).reverse),
      waiters := (s.waiters.fire e.key).2 } := by
  obtain ⟨x, st, hi, hl'⟩ := EntryStore.insert_ok hl e
  have happly : apply (.addEntry e) s =
      .ok (s.waiters.fire e.key).1 { s with store := st, waiters := (s.waiters.fire e.key).2 } := by
    rw [apply_addEntry_run]
    simp only [KeySource.assign, hk, if_false, hi]
  have hfire : (s.waiters.fire e.key).1.reverse =
      ((s.waiters.pending.filter (·.1 = e.key)).map (·.2)).reverse.map
        fun x => Mutation.ofWake x.subscriber x.wake := by
    rw [Waiters.fire_wakes hw, Waiters.wakes, List.map_reverse, List.map_map]
    rfl
  have hlen : (((s.waiters.pending.filter (·.1 = e.key)).map (·.2)).reverse).length ≤
      s.waiters.size + 3 := by
    rw [List.length_reverse, List.length_map, Waiters.size_eq_length_pending]
    exact (List.length_filter_le _ _).trans (Nat.le_add_right _ _)
  unfold addEntry applyLocal
  simp only [bind, EStateM.bind, get, getThe, MonadStateOf.get, EStateM.get]
  rw [applyLocal.go]
  simp only [bind, EStateM.bind, happly, List.append_nil]
  rw [hfire, applyLocal_go_wakes _ _ hl' hlen]
  rw [EntryStore.writeAll_insert_cons hi, List.map_reverse, List.map_map]
  rfl

/-- Applying keyed entries one by one to a shard without a limit. -/
theorem forM_addEntry_run : ∀ (es : List Entry) {s : Shard}, s.store.limit = none →
    s.waiters.WellFormed → (∀ e ∈ es, e.key ≠ Key.unassigned) →
    (es.forM addEntry) s = .ok () { s with
      store := s.store.writeAll (directWrites s.waiters.pending es),
      waiters := ⟨s.waiters.byKey.filter fun p => p.1 ∉ es.map (·.key)⟩ }
  | [], s, _, _, _ => by
    simp only [List.map_nil, List.not_mem_nil, not_false_eq_true, decide_true,
      List.filter_true]
    rfl
  | e :: es, s, hl, hw, hk => by
    show (addEntry e >>= fun _ => es.forM addEntry) s = _
    rw [bind_run (addEntry_run hl hw (hk e List.mem_cons_self))]
    rw [forM_addEntry_run es ((EntryStore.limit_writeAll _ _).trans hl) (hw.fire e.key)
      fun d hd => hk d (List.mem_cons_of_mem _ hd)]
    rw [Waiters.pending_fire, Waiters.filter_fire, directWrites, EntryStore.writeAll_append]
    rfl

/-! ### Staging new entries and closing the stage -/

/-- Staging a keyed entry holds it, merged into what is held under its key. -/
theorem stage_addEntry_run {e : Entry} (hk : e.key ≠ Key.unassigned) (s : Shard) :
    stage (.addEntry e) s = .ok () { s with
      staged := { s.staged with newEntries := Staged.putEntry e s.staged.newEntries } } := by
  rw [stage_addEntry, bind_run (assignKey_keyed hk s)]
  rfl

theorem forM_stage_run : ∀ (es : List Entry) (s : Shard),
    (∀ e ∈ es, e.key ≠ Key.unassigned) →
    (es.forM fun e => stage (.addEntry e)) s = .ok () { s with
      staged := { s.staged with
        newEntries := es.foldl (fun ds e => Staged.putEntry e ds) s.staged.newEntries } }
  | [], s, _ => rfl
  | e :: es, s, hk => by
    show (stage (.addEntry e) >>= fun _ => es.forM fun e => stage (.addEntry e)) s = _
    rw [bind_run (stage_addEntry_run (hk e List.mem_cons_self) s),
      forM_stage_run es _ fun d hd => hk d (List.mem_cons_of_mem _ hd)]
    rfl

/-- Inserting held entries in turn, each firing the waiters on its key: the report counts them
and collects the wakes in the order fired. -/
theorem foldlM_commit_run {step : CloseReport → Entry → ShardOp CloseReport}
    (hstep : ∀ r e s, step r e s =
      match s.store.insert e with
      | .ok (_, st) =>
        .ok ⟨r.committed + 1, r.wakes ++ (s.waiters.fire e.key).1⟩
          ({ s with store := st, waiters := (s.waiters.fire e.key).2 } : Shard)
      | .error f => .error f s) :
    ∀ (ds : List Entry) (r : CloseReport) {s : Shard}, s.store.limit = none →
      s.waiters.WellFormed →
      ds.foldlM step r s =
        .ok ⟨r.committed + ds.length,
            r.wakes ++ Waiters.wakes (commitWakes s.waiters.pending ds)⟩
          { s with store := s.store.writeAll (ds.map .insert),
                   waiters := ⟨s.waiters.byKey.filter fun p => p.1 ∉ ds.map (·.key)⟩ }
  | [], r, s, _, _ => by
    simp only [List.length_nil, Nat.add_zero, commitWakes, Waiters.wakes, List.map_nil,
      List.append_nil, List.not_mem_nil, not_false_eq_true, decide_true, List.filter_true]
    rfl
  | d :: ds, r, s, hl, hw => by
    obtain ⟨x, st, hi, hl'⟩ := EntryStore.insert_ok hl d
    have hrun : step r d s = .ok ⟨r.committed + 1, r.wakes ++ (s.waiters.fire d.key).1⟩
          { s with store := st, waiters := (s.waiters.fire d.key).2 } := by
      rw [hstep, hi]
    have hstore : s.store.writeAll ((d :: ds).map .insert) = st.writeAll (ds.map .insert) := by
      rw [List.map_cons, EntryStore.writeAll_insert_cons hi]
    have hwakes : Waiters.wakes (commitWakes s.waiters.pending (d :: ds)) =
        (s.waiters.fire d.key).1 ++
          Waiters.wakes (commitWakes (s.waiters.fire d.key).2.pending ds) := by
      rw [commitWakes, Waiters.wakes, List.map_append, Waiters.fire_wakes hw, Waiters.pending_fire]
      rfl
    have hn : r.committed + 1 + ds.length = r.committed + (d :: ds).length := by
      rw [List.length_cons]
      omega
    show (step r d >>= fun r' => ds.foldlM step r') s = _
    rw [bind_run hrun, foldlM_commit_run hstep ds _ hl' (hw.fire d.key), Waiters.filter_fire,
      hstore, hwakes, hn, List.append_assoc]
    rfl

/-- Committing a stage that holds only new entries `ds`: they are inserted in their order, and
the report counts them and carries the wakes of the waiters on their keys, in the order fired. -/
theorem commitStaged_run (hl : s.store.limit = none) (hw : s.waiters.WellFormed) {ds : List Entry}
    (hs : s.staged = ⟨ds, [], [], []⟩) :
    commitStaged s = .ok ⟨ds.length, Waiters.wakes (commitWakes s.waiters.pending ds)⟩
      { s with staged := Staged.empty, store := s.store.writeAll (ds.map .insert),
               waiters := ⟨s.waiters.byKey.filter fun p => p.1 ∉ ds.map (·.key)⟩ } := by
  unfold commitStaged
  simp only [bind, EStateM.bind, get, getThe, MonadStateOf.get, EStateM.get, modify, modifyGet,
    MonadStateOf.modifyGet, EStateM.modifyGet, hs]
  rw [foldlM_commit_run (fun r e s => ?_) ds ⟨0, []⟩ (s := { s with staged := Staged.empty })
    hl hw]
  · simp
    rfl
  · exact insertFire_run e (fun w => (⟨r.committed + 1, r.wakes ++ w⟩ : CloseReport)) s

/-- Closing a stage that holds only new entries `ds`: they are inserted in their order, and the
wakes they fire are applied afterwards, in the order fired. -/
theorem stageClose_run (hl : s.store.limit = none) (hw : s.waiters.WellFormed) {ds : List Entry}
    (hs : s.staged = ⟨ds, [], [], []⟩) :
    stageClose s = .ok ds.length
      { s with staged := Staged.empty,
               store := s.store.writeAll
                 (ds.map .insert ++ (commitWakes s.waiters.pending ds).map (·.2.write)),
               waiters := ⟨s.waiters.byKey.filter fun p => p.1 ∉ ds.map (·.key)⟩ } := by
  unfold stageClose
  rw [bind_run (commitStaged_run hl hw hs)]
  dsimp only
  rw [bind_run (forM_applyLocal_wakes _ ((EntryStore.limit_writeAll _ _).trans hl)),
    EntryStore.writeAll_append]
  rfl

/-- Staging keyed entries into an empty stage of a shard without a limit, then closing it: the
entries, merged under their keys, are inserted in key order, and the wakes they fire are applied
afterwards. -/
theorem stageAll_run (hl : s.store.limit = none) (hw : s.waiters.WellFormed)
    (he : s.staged = Staged.empty) {es : List Entry} (hk : ∀ e ∈ es, e.key ≠ Key.unassigned) :
    ((es.forM fun e => stage (.addEntry e)) >>= fun _ => stageClose) s =
      .ok (es.foldl (fun ds e => Staged.putEntry e ds) []).length { s with
        staged := Staged.empty,
        store := s.store.writeAll ((es.foldl (fun ds e => Staged.putEntry e ds) []).map .insert ++
          (commitWakes s.waiters.pending (es.foldl (fun ds e => Staged.putEntry e ds) [])).map
            (·.2.write)),
        waiters := ⟨s.waiters.byKey.filter fun p =>
          p.1 ∉ (es.foldl (fun ds e => Staged.putEntry e ds) []).map (·.key)⟩ } := by
  rw [bind_run (forM_stage_run es s hk)]
  simp only [he]
  exact (stageClose_run (s := { s with staged := ⟨es.foldl (fun ds e => Staged.putEntry e ds) [],
    [], [], []⟩ }) hl hw rfl).trans rfl

end Shard

end ShardStore
