import ShardStore.Proofs.Shard.Runs
/-!
Exporting a store and importing the export.

An export lists the entries with a count and a length before each, and reads back as the list
it was written from (`deserialize_serialize`), given that every entry keeps its tags as a set
and the file is shorter than `2 ^ 64` bytes. Importing is adding the entries read, one by one.
Into a fresh store, whose keys hold nothing, each entry goes in as it is, so the store lists
exactly the exported entries, in their key order (`importDb_fresh`). Imported again, each entry
meets itself: an entry merged with itself is unchanged unless it carries the force-merge tag,
and then its value doubles. So the second import leaves the store as it is exactly when no
entry carries that tag (`import_export_roundtrip`).
-/

namespace ShardStore

open EntryStore

/-! ### The export file -/

namespace Files

open Decoder in
/-- An export reads back as the entries it was written from. -/
theorem deserialize_serialize {es : List Entry} (h : ∀ e ∈ es, e.tags.Ascending)
    (hfit : (serialize es).length ≤ wordMax) : deserialize (serialize es) = .ok es :=
  (reads_counted_last (by decide)
    (fun e he => Reply.reads_entry Normalizer.lenient_faithful e (h e he))
    (fun e _ => by rw [Reply.length_sized]; omega)).run hfit

theorem serialize_ne_nil (es : List Entry) : serialize es ≠ [] := by
  intro h
  have hlen := congrArg List.length h
  rw [serialize, List.length_append, Decoder.length_len, List.length_nil] at hlen
  omega

end Files

/-! ### Entries merged with themselves -/

/-- An entry merged with itself is unchanged unless it forces the merge. -/
theorem Entry.merge_self {e : Entry} (h : e.hasTag Entry.forceMergeTag = false) :
    e.merge e = (e, .unchanged) := by
  simp [Entry.merge, Entry.forced, h]

/-- A forced merge of an entry with itself doubles its value, so it is a new entry. -/
theorem Entry.merge_self_ne {e : Entry} (h : e.hasTag Entry.forceMergeTag = true) :
    (e.merge e).1 ≠ e := by
  intro heq
  have hlen := congrArg (fun d : Entry => d.value.length) heq
  simp only [Entry.merge, Entry.forced, h, Bool.true_or, Bool.not_true, Bool.false_and,
    Bool.false_eq_true, if_false, List.length_append, List.length_singleton] at hlen
  omega

/-! ### Inserts into a store -/

section Inserts

variable {s : EntryStore}

/-- Inserting entries a store holds, none forcing merges, leaves the store as it is. -/
theorem writeAll_insert_held : ∀ {es : List Entry},
    (∀ e ∈ es, s.get? e.key = some e ∧ e.hasTag Entry.forceMergeTag = false) →
      s.writeAll (es.map .insert) = s
  | [], _ => rfl
  | e :: es, h => by
    obtain ⟨hget, hforce⟩ := h e List.mem_cons_self
    have hins : s.insert e = .ok (.unchanged, s) := by
      simp [EntryStore.insert, hget, Entry.merge_self hforce, pure, Except.pure]
    rw [List.map_cons, writeAll_insert_cons hins]
    exact writeAll_insert_held fun d hd => h d (List.mem_cons_of_mem _ hd)

/-- Inserting entries under distinct keys into a store without a limit: a key holds its entry
absorbed into what it held. -/
theorem get?_writeAll_insert (hl : s.limit = none) {es : List Entry}
    (hu : es.Pairwise fun a b => a.key ≠ b.key) (k : Key) :
    (s.writeAll (es.map .insert)).get? k =
      ((es.find? (·.key = k)).map (absorb (s.get? k))).or (s.get? k) := by
  rw [get?_writeAll _ hl, foldl_onKey_insert, absorbAll_of_pairwise hu]

/-- Inserting entries with tag sets, ascending by key, into an empty store: each key holds the
entry under it, and the store lists exactly those entries. -/
theorem writeAll_insert_fresh {es : List Entry} (ha : KeyAscending es)
    (ht : ∀ e ∈ es, e.tags.Ascending) :
    (∀ k, ((withLimit none).writeAll (es.map .insert)).get? k = es.find? (·.key = k)) ∧
      ((withLimit none).writeAll (es.map .insert)).entries = es := by
  have hget : ∀ k, ((withLimit none).writeAll (es.map .insert)).get? k = es.find? (·.key = k) := by
    intro k
    rw [get?_writeAll_insert rfl ha.keys_ne]
    cases es.find? (·.key = k) <;> rfl
  have hr : Reachable none ((withLimit none).writeAll (es.map .insert)) :=
    Reachable.start.writeAll fun w hw => by
      obtain ⟨e, he, rfl⟩ := List.mem_map.mp hw
      exact ht e he
  exact ⟨hget, eq_of_find? hr.consistent.1.ascending ha hget⟩

/-- Inserting again the entries a store holds under distinct keys leaves it as it is exactly when
none of them forces merges. -/
theorem writeAll_insert_self_iff (hl : s.limit = none) {es : List Entry}
    (hu : es.Pairwise fun a b => a.key ≠ b.key) (hget : ∀ k, s.get? k = es.find? (·.key = k)) :
    s.writeAll (es.map .insert) = s ↔ ∀ e ∈ es, e.hasTag Entry.forceMergeTag = false := by
  constructor
  · -- a forced entry doubles its value, so the store changes
    intro hsame e he
    by_contra hforce
    have hget' := congrArg (·.get? e.key) hsame
    rw [get?_writeAll_insert hl hu, hget, find?_key_of_mem hu he] at hget'
    exact Entry.merge_self_ne (by simpa using hforce) (Option.some.inj hget')
  · intro hforce
    exact writeAll_insert_held fun e he =>
      ⟨(hget e.key).trans (find?_key_of_mem hu he), hforce e he⟩

end Inserts

theorem directWrites_nil : ∀ es : List Entry, directWrites [] es = es.map .insert
  | [] => rfl
  | e :: es => by
    simp only [directWrites, List.filter_nil, List.map_nil, List.reverse_nil, List.map_cons]
    rw [directWrites_nil es]
    rfl

/-! ### Importing -/

namespace Shard

/-- Importing an export that reads as `es` adds its entries one by one. -/
theorem importDb_run {name : String} {bs : Bytes} {es : List Entry} (hne : bs ≠ [])
    (hd : Files.deserialize bs = .ok es) (s : Shard) :
    importDb name bs s = (es.forM addEntry >>= fun _ => pure es.length) s := by
  have hempty : bs.isEmpty = false := List.isEmpty_eq_false_iff.mpr hne
  simp only [importDb, hempty, Bool.false_eq_true, if_false, hd, bind, EStateM.bind, pure,
    EStateM.pure]

/-- A shard with no waiters stays so while entries are added. -/
theorem forM_addEntry_quiet {es : List Entry} {s : Shard} (hl : s.store.limit = none)
    (hw : s.waiters = Waiters.empty) (hk : ∀ e ∈ es, e.key ≠ Key.unassigned) :
    (es.forM addEntry) s = .ok () { s with store := s.store.writeAll (es.map .insert) } := by
  have hrun := forM_addEntry_run es hl (hw ▸ Waiters.wellFormed_empty) hk
  rw [hw] at hrun
  simp only [Waiters.pending, Waiters.empty, List.flatMap_nil, directWrites_nil] at hrun
  rw [hrun, hw]
  rfl

/-- Importing the export of a store reached by writes, none of whose entries lacks a key, into a
fresh shard lists exactly the store's entries, ascending by key; importing it again leaves the
store as it is exactly when no entry carries the force-merge tag. -/
theorem importDb_fresh {l : Option Nat} {S : EntryStore} (hS : EntryStore.Reachable l S)
    (hk : ∀ e ∈ S.entries, e.key ≠ Key.unassigned)
    (hfit : (Files.serialize S.entries).length ≤ Decoder.wordMax)
    (name : String) (catalog : Catalog) (keys : KeySource) :
    ∃ sh₁, importDb name (Files.serialize S.entries) (make (withLimit none) catalog keys) =
        .ok S.entries.length sh₁ ∧ sh₁.store.entries = S.entries ∧
      ∃ sh₂, importDb name (Files.serialize S.entries) sh₁ = .ok S.entries.length sh₂ ∧
        (sh₂.store = sh₁.store ↔
          ∀ e ∈ S.entries, e.hasTag Entry.forceMergeTag = false) := by
  obtain ⟨hc, -⟩ := hS.consistent
  have hd := Files.deserialize_serialize hc.tags hfit
  have hne := Files.serialize_ne_nil S.entries
  -- the first import: a fresh store takes each entry as it is
  obtain ⟨hget₁, hentries⟩ := writeAll_insert_fresh hc.ascending hc.tags
  set st₁ := (withLimit none).writeAll (S.entries.map .insert)
  have hrun₁ := forM_addEntry_quiet (s := make (withLimit none) catalog keys) rfl rfl hk
  refine ⟨{ make (withLimit none) catalog keys with store := st₁ }, ?_, hentries, ?_⟩
  · rw [importDb_run hne hd, bind_run hrun₁]
    rfl
  -- the second import: each entry meets itself
  have hl₁ : st₁.limit = none := (limit_writeAll _ _).trans rfl
  have hrun₂ := forM_addEntry_quiet
    (s := { make (withLimit none) catalog keys with store := st₁ }) hl₁ rfl hk
  refine ⟨_, by rw [importDb_run hne hd, bind_run hrun₂]; rfl, ?_⟩
  exact writeAll_insert_self_iff hl₁ hc.ascending.keys_ne hget₁

end Shard

/-- Exports read back, and an export imports into a fresh shard as the entries exported, and
again as the same store unless an entry forces merges: every list of entries with tag sets in a
file shorter than `2 ^ 64` bytes reads back from its export, and the export of every store
reached by writes, whose entries all have keys, imports as stated in `Shard.importDb_fresh`. -/
theorem import_export_roundtrip :
    (∀ es : List Entry, (∀ e ∈ es, e.tags.Ascending) →
      (Files.serialize es).length ≤ Decoder.wordMax →
      Files.deserialize (Files.serialize es) = .ok es) ∧
    (∀ (l : Option Nat) (S : EntryStore), Reachable l S →
      (∀ e ∈ S.entries, e.key ≠ Key.unassigned) →
      (Files.serialize S.entries).length ≤ Decoder.wordMax →
      ∀ (name : String) (catalog : Catalog) (keys : KeySource),
      ∃ sh₁, Shard.importDb name (Files.serialize S.entries)
          (Shard.make (withLimit none) catalog keys) = .ok S.entries.length sh₁ ∧
        sh₁.store.entries = S.entries ∧
        ∃ sh₂, Shard.importDb name (Files.serialize S.entries) sh₁ =
            .ok S.entries.length sh₂ ∧
          (sh₂.store = sh₁.store ↔
            ∀ e ∈ S.entries, e.hasTag Entry.forceMergeTag = false)) :=
  ⟨fun _ h hfit => Files.deserialize_serialize h hfit,
    fun _ _ hS hk hfit => Shard.importDb_fresh hS hk hfit⟩

/-- Two keyed entries, exported and imported into a fresh shard: they come back, and importing
them a second time changes nothing. -/
theorem import_export_roundtrip_pair :
    let S := (Write.insert (Entry.make ⟨1, 1, 2⟩ ["b"] (Bytes.ofString "y"))).apply
      ((Write.insert (Entry.make ⟨1, 1, 1⟩ ["a"] (Bytes.ofString "x"))).apply (withLimit none))
    ((∀ e ∈ S.entries, e.tags.Ascending) ∧
      (Files.serialize S.entries).length ≤ Decoder.wordMax ∧
      Files.deserialize (Files.serialize S.entries) = .ok S.entries) ∧
    (Reachable none S ∧ (∀ e ∈ S.entries, e.key ≠ Key.unassigned) ∧
      (Files.serialize S.entries).length ≤ Decoder.wordMax ∧
      ∃ sh₁, Shard.importDb "export" (Files.serialize S.entries)
          (Shard.make (withLimit none) default default) = .ok S.entries.length sh₁ ∧
        sh₁.store.entries = S.entries ∧
        ∃ sh₂, Shard.importDb "export" (Files.serialize S.entries) sh₁ =
            .ok S.entries.length sh₂ ∧
          (sh₂.store = sh₁.store ↔
            ∀ e ∈ S.entries, e.hasTag Entry.forceMergeTag = false)) := by
  intro S
  have hS : Reachable none S :=
    .step (.insert (Entry.make ⟨1, 1, 2⟩ ["b"] (Bytes.ofString "y"))) (by decide +kernel)
      (.step (.insert (Entry.make ⟨1, 1, 1⟩ ["a"] (Bytes.ofString "x"))) (by decide +kernel)
        .start)
  have htags : ∀ e ∈ S.entries, e.tags.Ascending := by decide +kernel
  have hk : ∀ e ∈ S.entries, e.key ≠ Key.unassigned := by decide +kernel
  have hfit : (Files.serialize S.entries).length ≤ Decoder.wordMax := by decide +kernel
  exact ⟨⟨htags, hfit, import_export_roundtrip.1 _ htags hfit⟩, hS, hk, hfit,
    import_export_roundtrip.2 none S hS hk hfit "export" default default⟩

end ShardStore
