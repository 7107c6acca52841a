import ShardStore.Proofs.Shard.Runs
/-!
Staging new entries and closing the stage, against applying them one by one.

On a store without a limit both ways insert every entry and fire every waiter on their keys, and
they fire the same waiters (`perm_directWakes`, `perm_commitWakes`); what differs is the order of
the writes. Applied one by one, each entry is merged into what its key holds in turn and its wakes
are applied at once, the last fired first. Staged, the entries under one key are merged with each
other first, the merged entries are inserted in key order, and all the wakes come at the end, in
the order fired.

A store is compared key by key (`get?_writeAll`): what a key holds depends only on the writes to
it, in their order. The two ways agree on a key the store held if it gets one entry only, since
then merging in turn is merging the merged entries once (`absorbAll_eq_absorb`), and on a
subscriber if one wake at most is for it. Both conditions are needed: merging is not associative,
and a tag added and removed by two wakes stays or goes with their order
(`stageClose_differs_from_addEntry`). Under them the two stores hold the same entries, count the
same bytes and index the same keys, and the same waiters are left
(`stageClose_agrees_with_addEntry`).
-/

namespace ShardStore

open EntryStore

/-- The waiters fired by applying entries one by one, in the order their wakes are applied. -/
def directWakes : List (Key × Waiter) → List Entry → List (Key × Waiter)
  | _, [] => []
  | ps, e :: es => (ps.filter (·.1 = e.key)).reverse ++ directWakes (ps.filter (·.1 ≠ e.key)) es

/-! ### Which waiters fire -/

/-- Firing one key and then others fires the waiters on all of them. -/
theorem perm_filter_key_cons (ps : List (Key × Waiter)) (k : Key) (ks : List Key) :
    (ps.filter (·.1 = k) ++ (ps.filter (·.1 ≠ k)).filter (·.1 ∈ ks)).Perm
      (ps.filter (·.1 ∈ k :: ks)) := by
  have hor := Shard.perm_filter_or (fun p : Key × Waiter => decide (p.1 = k))
    (fun p => decide (p.1 ∈ ks)) ps
  simp only [decide_not, List.mem_cons, Bool.decide_or]
  exact hor

theorem perm_directWakes : ∀ (ps : List (Key × Waiter)) (es : List Entry),
    (directWakes ps es).Perm (ps.filter (·.1 ∈ es.map (·.key)))
  | ps, [] => by simp [directWakes]
  | ps, e :: es => by
    rw [directWakes, List.map_cons]
    exact ((List.reverse_perm _).append (perm_directWakes _ es)).trans
      (perm_filter_key_cons ps e.key _)

theorem perm_commitWakes : ∀ (ps : List (Key × Waiter)) (ds : List Entry),
    (commitWakes ps ds).Perm (ps.filter (·.1 ∈ ds.map (·.key)))
  | ps, [] => by simp [commitWakes]
  | ps, d :: ds => by
    rw [commitWakes, List.map_cons]
    exact ((List.Perm.refl _).append (perm_commitWakes _ ds)).trans
      (perm_filter_key_cons ps d.key _)

/-! ### What the wakes make of a key -/

section Wakes

variable {j : Key}

/-- Of a run of wakes, only those for the subscriber `j` change what `j` holds. -/
theorem foldl_onKey_wakes (j : Key) : ∀ (ps : List (Key × Waiter)) (o : Option Entry),
    (ps.map (·.2.write)).foldl (fun o w => w.onKey j o) o =
      ((ps.filter (·.2.subscriber = j)).map (·.2.write)).foldl (fun o w => w.onKey j o) o
  | [], _ => rfl
  | p :: ps, o => by
    by_cases hp : p.2.subscriber = j
    · simp only [List.map_cons, List.foldl_cons, List.filter_cons, hp, decide_true, if_true]
      exact foldl_onKey_wakes j ps _
    · simp only [List.map_cons, List.foldl_cons, List.filter_cons, hp, decide_false,
        Bool.false_eq_true, if_false, Waiter.onKey_write_of_ne hp]
      exact foldl_onKey_wakes j ps o

/-- A list of at most one element is its only permutation. -/
theorem eq_of_perm_of_length_le_one {α : Type} {l₁ l₂ : List α} (h : l₁.Perm l₂)
    (hl : l₁.length ≤ 1) : l₁ = l₂ :=
  match l₁, hl with
  | [], _ => h.nil_eq
  | [_], _ => (List.perm_singleton.mp h.symm).symm

/-- Wakes in two orders agree on a key at most one of them is for. -/
theorem foldl_onKey_wakes_perm {ps qs : List (Key × Waiter)} (h : ps.Perm qs)
    (hone : (ps.filter (·.2.subscriber = j)).length ≤ 1) (o : Option Entry) :
    (ps.map (·.2.write)).foldl (fun o w => w.onKey j o) o =
      (qs.map (·.2.write)).foldl (fun o w => w.onKey j o) o := by
  rw [foldl_onKey_wakes j ps, foldl_onKey_wakes j qs,
    eq_of_perm_of_length_le_one (h.filter _) hone]

/-- Of waiters on distinct subscribers, at most one is for `j`. -/
theorem length_filter_subscriber_le_one {ps : List (Key × Waiter)}
    (h : (ps.map (·.2.subscriber)).Nodup) (j : Key) :
    (ps.filter (·.2.subscriber = j)).length ≤ 1 := by
  have hnodup : ((ps.filter (·.2.subscriber = j)).map (·.2.subscriber)).Nodup :=
    h.sublist (List.filter_sublist.map _)
  have hrep : (ps.filter (·.2.subscriber = j)).map (·.2.subscriber) =
      List.replicate (ps.filter (·.2.subscriber = j)).length j := by
    refine List.eq_replicate_iff.mpr ⟨List.length_map _, fun b hb => ?_⟩
    obtain ⟨p, hp, rfl⟩ := List.mem_map.mp hb
    simpa using (List.mem_filter.mp hp).2
  rw [hrep] at hnodup
  exact List.nodup_replicate.mp hnodup

end Wakes

/-! ### What each way makes of a key -/

section Keywise

variable {j : Key}

/-- Applying entries one by one, a key no fired wake is for holds what merging the entries
under it in turn makes of what it held. -/
theorem foldl_onKey_directWrites_of_unwoken : ∀ (es : List Entry) (ps : List (Key × Waiter))
    (o : Option Entry), (∀ p ∈ ps, p.1 ∈ es.map (·.key) → p.2.subscriber ≠ j) →
    (directWrites ps es).foldl (fun o w => w.onKey j o) o = absorbAll o j es
  | [], _, _, _ => rfl
  | e :: es, ps, o, h => by
    -- the wakes of `e` are for subscribers other than `j`
    have hwakes : ∀ w ∈ ((ps.filter (·.1 = e.key)).map (·.2.write)).reverse, ∀ o,
        w.onKey j o = o := by
      intro w hw o
      obtain ⟨p, hp, rfl⟩ := List.mem_map.mp (List.mem_reverse.mp hw)
      obtain ⟨hp, hpk⟩ := List.mem_filter.mp hp
      exact Waiter.onKey_write_of_ne (h p hp (by simp_all)) o
    rw [directWrites, List.foldl_append, List.foldl_cons, foldl_onKey_of_forall hwakes,
      absorbAll_cons]
    exact foldl_onKey_directWrites_of_unwoken es _ _ fun p hp hpk =>
      h p (List.mem_filter.mp hp).1 (List.mem_cons_of_mem _ hpk)

/-- Applying entries one by one, a key none of them is under holds what the fired wakes make
of it. -/
theorem foldl_onKey_directWrites_of_absent : ∀ (es : List Entry) (ps : List (Key × Waiter))
    (o : Option Entry), (∀ e ∈ es, e.key ≠ j) →
    (directWrites ps es).foldl (fun o w => w.onKey j o) o =
      ((directWakes ps es).map (·.2.write)).foldl (fun o w => w.onKey j o) o
  | [], _, _, _ => rfl
  | e :: es, ps, o, h => by
    have he : (Write.insert e).onKey j o = o := by simp [Write.onKey, h e List.mem_cons_self]
    rw [directWrites, List.foldl_append, List.foldl_cons, he, directWakes, List.map_append,
      List.foldl_append, List.map_reverse]
    exact foldl_onKey_directWrites_of_absent es _ _ fun d hd => h d (List.mem_cons_of_mem _ hd)

/-- Closing a stage, a key no fired wake is for holds what merging the held entries under it
makes of what it held. -/
theorem foldl_onKey_stagedWrites_of_unwoken {ds : List Entry} {ps : List (Key × Waiter)}
    (h : ∀ p ∈ ps, p.1 ∈ ds.map (·.key) → p.2.subscriber ≠ j) (o : Option Entry) :
    (ds.map Write.insert ++ (commitWakes ps ds).map (·.2.write)).foldl (fun o w => w.onKey j o) o =
      absorbAll o j ds := by
  rw [List.foldl_append, foldl_onKey_insert, foldl_onKey_of_forall]
  intro w hw o
  obtain ⟨p, hp, rfl⟩ := List.mem_map.mp hw
  obtain ⟨hp, hpk⟩ := List.mem_filter.mp ((perm_commitWakes ps ds).subset hp)
  exact Waiter.onKey_write_of_ne (h p hp (by simpa using hpk)) o

/-- Closing a stage, a key none of the held entries is under holds what the fired wakes make
of it. -/
theorem foldl_onKey_stagedWrites_of_absent {ds : List Entry} {ps : List (Key × Waiter)}
    (h : ∀ d ∈ ds, d.key ≠ j) (o : Option Entry) :
    (ds.map Write.insert ++ (commitWakes ps ds).map (·.2.write)).foldl (fun o w => w.onKey j o) o =
      ((commitWakes ps ds).map (·.2.write)).foldl (fun o w => w.onKey j o) o := by
  rw [List.foldl_append, foldl_onKey_insert, absorbAll_of_forall_ne h]

/-- On a store without a limit, applying entries one by one and staging them leave every key
holding the same, when every key the store holds gets at most one of the entries and the
waiters on their keys are for distinct subscribers, none of them a key of the entries. -/
theorem get?_directWrites_eq_staged {s : EntryStore} (hl : s.limit = none)
    {ps : List (Key × Waiter)} {es : List Entry}
    (hheld : ∀ k, s.contains k = true → (es.filter (·.key = k)).length ≤ 1)
    (hsub : ((ps.filter (·.1 ∈ es.map (·.key))).map (·.2.subscriber)).Nodup)
    (hout : ∀ p ∈ ps, p.1 ∈ es.map (·.key) → p.2.subscriber ∉ es.map (·.key)) (j : Key) :
    (s.writeAll (directWrites ps es)).get? j =
      (s.writeAll ((es.foldl (fun ds e => Staged.putEntry e ds) []).map .insert ++
        (commitWakes ps (es.foldl (fun ds e => Staged.putEntry e ds) [])).map
          (·.2.write))).get? j := by
  obtain ⟨hasc, hfind⟩ := Staged.find?_foldl_putEntry es (List.Pairwise.nil : KeyAscending [])
  have hdsK := Staged.mem_keys_foldl_putEntry es
  set ds := es.foldl (fun ds e => Staged.putEntry e ds) []
  rw [get?_writeAll _ hl, get?_writeAll _ hl]
  by_cases hj : ∀ p ∈ ps, p.1 ∈ es.map (·.key) → p.2.subscriber ≠ j
  · -- no wake is for `j`: the merges under `j`, in turn or merged first
    rw [foldl_onKey_directWrites_of_unwoken es _ _ hj,
      foldl_onKey_stagedWrites_of_unwoken (fun p hp hpk => hj p hp ((hdsK _).mp hpk)),
      absorbAll_of_pairwise hasc.keys_ne, hfind, List.find?_nil]
    refine absorbAll_eq_absorb _ j es ?_
    cases hg : s.get? j with
    | none => exact .inl rfl
    | some d => exact .inr (hheld j (by simp [contains, hg]))
  · -- one wake is for `j`, which no entry is under
    simp only [not_forall, not_not] at hj
    obtain ⟨p, hp, hpK, rfl⟩ := hj
    have habsent : ∀ e ∈ es, e.key ≠ p.2.subscriber :=
      fun e he h => hout p hp hpK (h ▸ List.mem_map_of_mem he)
    have hfilter : ps.filter (·.1 ∈ ds.map (·.key)) = ps.filter (·.1 ∈ es.map (·.key)) :=
      List.filter_congr fun p _ => by simp only [hdsK]
    have hperm : (directWakes ps es).Perm (commitWakes ps ds) := by
      refine (perm_directWakes _ es).trans ?_
      rw [← hfilter]
      exact (perm_commitWakes _ ds).symm
    rw [foldl_onKey_directWrites_of_absent es _ _ habsent,
      foldl_onKey_stagedWrites_of_absent fun d hd h =>
        hout p hp hpK ((hdsK _).mp (by rw [← h]; exact List.mem_map_of_mem hd))]
    refine foldl_onKey_wakes_perm hperm ?_ _
    rw [((perm_directWakes _ es).filter _).length_eq]
    exact length_filter_subscriber_le_one hsub _

end Keywise

theorem tagsAscending_directWrites : ∀ (ps : List (Key × Waiter)) (es : List Entry),
    (∀ e ∈ es, e.tags.Ascending) → ∀ w ∈ directWrites ps es, w.TagsAscending
  | _, [], _, _, hw => nomatch hw
  | ps, e :: es, he, w, hw => by
    rw [directWrites, List.mem_append, List.mem_cons] at hw
    rcases hw with (rfl | hw) | hw
    · exact he e List.mem_cons_self
    · obtain ⟨p, -, rfl⟩ := List.mem_map.mp (List.mem_reverse.mp hw)
      exact p.2.tagsAscending_write
    · exact tagsAscending_directWrites _ es (fun d hd => he d (List.mem_cons_of_mem _ hd)) w hw

theorem tagsAscending_stagedWrites (ps : List (Key × Waiter)) {ds : List Entry}
    (hd : ∀ d ∈ ds, d.tags.Ascending) :
    ∀ w ∈ ds.map Write.insert ++ (commitWakes ps ds).map (·.2.write), w.TagsAscending := by
  intro w hw
  rcases List.mem_append.mp hw with hw | hw
  · obtain ⟨d, hd', rfl⟩ := List.mem_map.mp hw
    exact hd d hd'
  · obtain ⟨p, -, rfl⟩ := List.mem_map.mp hw
    exact p.2.tagsAscending_write

namespace Shard

/-- Staging keyed entries with tag sets into an empty stage and closing it leaves the store and
the waiters that applying them one by one leaves, on a store without a limit, when every key the
store already holds gets at most one of the entries, and the waiters on their keys are for
distinct subscribers, none of them a key of the entries. The stores hold the same entries, count
the same bytes and index the same keys under each tag. -/
theorem stageClose_agrees_with_addEntry {sh : Shard} {es : List Entry}
    (hs : EntryStore.Reachable none sh.store) (hw : sh.waiters.WellFormed)
    (he : sh.staged = Staged.empty)
    (hk : ∀ e ∈ es, e.key ≠ Key.unassigned ∧ e.tags.Ascending)
    (hheld : ∀ k, sh.store.contains k = true → (es.filter (·.key = k)).length ≤ 1)
    (hsub : ((sh.waiters.pending.filter (·.1 ∈ es.map (·.key))).map (·.2.subscriber)).Nodup)
    (hout : ∀ p ∈ sh.waiters.pending, p.1 ∈ es.map (·.key) →
      p.2.subscriber ∉ es.map (·.key)) :
    ∃ d n t, (es.forM addEntry) sh = .ok () d ∧
      ((es.forM fun e => stage (.addEntry e)) >>= fun _ => stageClose) sh = .ok n t ∧
      d.store.entries = t.store.entries ∧ d.store.used = t.store.used ∧
      (∀ u k, k ∈ (d.store.tagged u).getD [] ↔ k ∈ (t.store.tagged u).getD []) ∧
      d.store.limit = t.store.limit ∧ d.waiters = t.waiters := by
  obtain ⟨-, hl⟩ := hs.consistent
  have hkeys : ∀ e ∈ es, e.key ≠ Key.unassigned := fun e he => (hk e he).1
  -- both stores are reachable, so the same entry under every key gives the same entries, and
  -- those the same counts and indexes
  have hrd := hs.writeAll (tagsAscending_directWrites sh.waiters.pending es fun e he => (hk e he).2)
  have hrs := hs.writeAll (tagsAscending_stagedWrites sh.waiters.pending
    (Staged.tags_foldl_putEntry fun e he => (hk e he).2))
  have hentries := eq_of_find? hrd.consistent.1.ascending hrs.consistent.1.ascending
    (get?_directWrites_eq_staged hl hheld hsub hout)
  obtain ⟨hused, hidx⟩ := hrd.consistent.1.same_of_entries hrs.consistent.1 hentries
  refine ⟨_, _, _, forM_addEntry_run es hl hw hkeys, stageAll_run hl hw he hkeys, hentries, hused,
    hidx, by rw [limit_writeAll, limit_writeAll], ?_⟩
  -- the same waiters leave: those on the keys of the entries, which the stage holds
  show (⟨_⟩ : Waiters) = ⟨_⟩
  congr 1
  exact List.filter_congr fun p _ => by rw [decide_eq_decide, Staged.mem_keys_foldl_putEntry]

/-- A store holding `[2,1,0]` with one waiter on `[1,1,0]`, and an entry under `[1,1,0]` that
wakes it: staged or applied, the waiter tags its subscriber and leaves. -/
theorem stageClose_agrees_with_addEntry_woken :
    let sh : Shard :=
      { make ((Write.insert (Entry.make ⟨2, 1, 0⟩ ["s"] (Bytes.ofString "w"))).apply
          (withLimit none)) default default with
      waiters := Waiters.empty.register ⟨1, 1, 0⟩ ⟨2, 1, 0⟩ (.addTag "t") }
    let es := [Entry.make ⟨1, 1, 0⟩ ["a"] (Bytes.ofString "x")]
    EntryStore.Reachable none sh.store ∧ sh.waiters.WellFormed ∧ sh.staged = Staged.empty ∧
      (∀ e ∈ es, e.key ≠ Key.unassigned ∧ e.tags.Ascending) ∧
      (∀ k, sh.store.contains k = true → (es.filter (·.key = k)).length ≤ 1) ∧
      ((sh.waiters.pending.filter (·.1 ∈ es.map (·.key))).map (·.2.subscriber)).Nodup ∧
      (∀ p ∈ sh.waiters.pending, p.1 ∈ es.map (·.key) →
        p.2.subscriber ∉ es.map (·.key)) ∧
      ∃ d n t, (es.forM addEntry) sh = .ok () d ∧
        ((es.forM fun e => stage (.addEntry e)) >>= fun _ => stageClose) sh = .ok n t ∧
        d.store.entries = t.store.entries ∧ d.store.used = t.store.used ∧
        (∀ u k, k ∈ (d.store.tagged u).getD [] ↔ k ∈ (t.store.tagged u).getD []) ∧
        d.store.limit = t.store.limit ∧ d.waiters = t.waiters := by
  intro sh es
  have hs : EntryStore.Reachable none sh.store :=
    .step (.insert (Entry.make ⟨2, 1, 0⟩ ["s"] (Bytes.ofString "w"))) (by decide +kernel) .start
  have hw : sh.waiters.WellFormed := Waiters.wellFormed_empty.register
  have hk : ∀ e ∈ es, e.key ≠ Key.unassigned ∧ e.tags.Ascending := by decide +kernel
  have hheld : ∀ k, sh.store.contains k = true → (es.filter (·.key = k)).length ≤ 1 :=
    fun _ _ => List.length_filter_le _ _
  have hsub :
      ((sh.waiters.pending.filter (·.1 ∈ es.map (·.key))).map (·.2.subscriber)).Nodup := by
    decide +kernel
  have hout : ∀ p ∈ sh.waiters.pending, p.1 ∈ es.map (·.key) →
      p.2.subscriber ∉ es.map (·.key) := by
    decide +kernel
  exact ⟨hs, hw, rfl, hk, hheld, hsub, hout,
    stageClose_agrees_with_addEntry hs hw rfl hk hheld hsub hout⟩

/-- Without the two conditions the ways differ. An entry staged twice over a key the store holds
is merged with its copy first, which changes nothing, and then once into the stored entry; applied
twice, it is merged in twice. Two waiters of one subscriber on the key of a new entry, the first
adding a tag and the second removing it, fire in the order they registered when staged, and the
last first when applied: the tag goes one way and stays the other. -/
theorem stageClose_differs_from_addEntry :
    (let e := Entry.make ⟨1, 1, 0⟩ ["b"] (Bytes.ofString "e")
     let sh := make ((Write.insert (Entry.make ⟨1, 1, 0⟩ ["a"] (Bytes.ofString "s"))).apply
       (withLimit none)) default default
     (endState ([e, e].forM addEntry sh)).store.entries ≠
       (endState ((([e, e].forM fun e => stage (.addEntry e)) >>= fun _ => stageClose)
         sh)).store.entries) ∧
    (let e := Entry.make ⟨1, 1, 0⟩ ["a"] (Bytes.ofString "x")
     let sh := (Call.subscribe ⟨2, 1, 0⟩ ⟨1, 1, 0⟩ (.removeTag "t")).run
       ((Call.subscribe ⟨2, 1, 0⟩ ⟨1, 1, 0⟩ (.addTag "t")).run
         (make ((Write.insert (Entry.make ⟨2, 1, 0⟩ ["s"] (Bytes.ofString "w"))).apply
           (withLimit none)) default default))
     (endState ([e].forM addEntry sh)).store.entries ≠
       (endState ((([e].forM fun e => stage (.addEntry e)) >>= fun _ => stageClose)
         sh)).store.entries) := by
  constructor <;> decide +kernel

end Shard

end ShardStore
