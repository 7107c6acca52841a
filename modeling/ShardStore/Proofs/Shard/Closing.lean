import ShardStore.Proofs.Shard.Rounds
/-!
What closing a stage makes of one key.

With no subscription waiting, closing a stage of mutations makes the stage's writes and nothing
more. One key then holds, in turn: the new entries under it merged into what it held, the value
of the last value update on it, and the tags added to it. So a key that held nothing and gets one
new entry ends with that entry and the last value written to it, and a held key a tag is added
to ends with the tag, whatever else is added.
-/

namespace ShardStore

namespace EntryStore

/-- The value the last of some value updates writes to a key, if one does. -/
def lastWrite (ps : List (Key × Bytes)) (j : Key) : Option Bytes :=
  ((ps.filter (·.1 = j)).map (·.2)).getLast?

/-- Value updates in turn leave a held entry with the last value written to its key. -/
theorem foldl_onKey_setValue (j : Key) : ∀ (ps : List (Key × Bytes)) (o : Option Entry),
    (ps.map fun p => Write.setValue p.1 p.2).foldl (fun o w => w.onKey j o) o =
      o.map fun d => { d with value := (lastWrite ps j).getD d.value }
  | [], o => by cases o <;> simp [lastWrite]
  | p :: ps, o => by
    rw [List.map_cons, List.foldl_cons, foldl_onKey_setValue j ps]
    by_cases hp : p.1 = j
    · cases o with
      | none => simp [Write.onKey, hp]
      | some d =>
        simp only [lastWrite, Write.onKey, hp, if_true, Option.map_some, List.filter_cons,
          decide_true, List.map_cons, List.getLast?_cons, Option.some.injEq]
        cases ((ps.filter (·.1 = j)).map (·.2)).getLast? <;> rfl
    · simp [lastWrite, Write.onKey, hp]

/-- An addition of a tag keeps the entry a key holds, with its tags, and adds the tag when it is
on the key. -/
theorem onKey_addTag_some (k j : Key) (t : String) (d : Entry) :
    ∃ d', (Write.addTag k t).onKey j (some d) = some d' ∧
      (∀ u, d.hasTag u = true → d'.hasTag u = true) ∧ (k = j → d'.hasTag t = true) := by
  by_cases hk : k = j
  · by_cases ht : d.hasTag t
    · exact ⟨d, by simp [Write.onKey, hk, ht], fun _ h => h, fun _ => ht⟩
    · refine ⟨(d.addTag t).1, by simp [Write.onKey, hk, ht], fun u h => ?_, fun _ => ?_⟩
      · exact Entry.hasTag_addTag.mpr (.inr h)
      · exact Entry.hasTag_addTag.mpr (.inl rfl)
  · exact ⟨d, by simp [Write.onKey, hk], fun _ h => h, fun h => absurd h hk⟩

/-- A tag added to a held key is there after all the additions. -/
theorem foldl_onKey_addTag_mem {j : Key} {t : String} : ∀ {ps : List (Key × String)},
    (j, t) ∈ ps → ∀ d : Entry, ∃ d',
      (ps.map fun p => Write.addTag p.1 p.2).foldl (fun o w => w.onKey j o) (some d) = some d' ∧
        d'.hasTag t = true
  | [], h, _ => absurd h List.not_mem_nil
  | p :: ps, h, d => by
    obtain ⟨d₁, h₁, hkeep, hadd⟩ := onKey_addTag_some p.1 j p.2 d
    rw [List.map_cons, List.foldl_cons, h₁]
    rcases List.mem_cons.mp h with rfl | h
    · -- the addition itself; the ones after it keep the tag
      suffices hk : ∀ (qs : List (Key × String)) (d : Entry), d.hasTag t = true → ∃ d',
          (qs.map fun p => Write.addTag p.1 p.2).foldl (fun o w => w.onKey j o) (some d) =
            some d' ∧ d'.hasTag t = true from hk ps d₁ (hadd rfl)
      intro qs
      induction qs with
      | nil => exact fun d hd => ⟨d, rfl, hd⟩
      | cons q qs ih =>
        intro d hd
        obtain ⟨d₂, h₂, hkeep₂, -⟩ := onKey_addTag_some q.1 j q.2 d
        rw [List.map_cons, List.foldl_cons, h₂]
        exact ih d₂ (hkeep₂ t hd)
    · exact foldl_onKey_addTag_mem h d₁

end EntryStore

namespace Shard

variable {s : Shard} {ms : List Mutation}

/-- With no subscription waiting, closing a stage makes its writes and nothing more. -/
theorem afterClose_store (hw : s.waiters = Waiters.empty) (st : Staged) :
    (s.afterClose st).store = s.store.writeAll st.writes := by
  have hnil : commitWakes s.waiters.pending st.newEntries = [] := by
    rw [hw]
    exact commitWakes_nil _
  rw [afterClose]
  simp only [hnil, List.map_nil, List.append_nil]

section Close

variable (hl : s.store.limit = none) (hw : s.waiters = Waiters.empty)
  (hrem : ms.filterMap Mutation.tagRemoval? = [])
include hl hw hrem

/-- What closing a stage of mutations that removes no tag makes of one key: the entries
inserted under it merged into what it held, then the last value written to it, then the tags
added to it. -/
theorem get?_close (j : Key) :
    (s.afterClose (ms.foldl (fun st m => (st.stage m).1) Staged.empty)).store.get? j =
      ((ms.filterMap Mutation.tagAddition?).map fun p => EntryStore.Write.addTag p.1 p.2).foldl
        (fun o w => w.onKey j o)
        ((EntryStore.absorbAll (s.store.get? j) j
            ((ms.filterMap Mutation.inserted?).foldl (fun ds e => Staged.putEntry e ds) [])).map fun d =>
          { d with
            value := (EntryStore.lastWrite (ms.filterMap Mutation.valueUpdate?) j).getD
              d.value }) := by
  rw [afterClose_store hw, EntryStore.get?_writeAll _ hl, Staged.foldl_stage]
  simp only [Staged.writes, Staged.empty, List.nil_append, hrem, List.map_nil, List.append_nil,
    List.foldl_append, EntryStore.foldl_onKey_insert, EntryStore.foldl_onKey_setValue]

/-- A key that held nothing and gets exactly one new entry, and no tag, ends with that entry
and the last value written to it. -/
theorem get?_close_inserted {j : Key} {e : Entry} (hnone : s.store.get? j = none)
    (hins : (ms.filterMap Mutation.inserted?).filter (·.key = j) = [e])
    (htags : ∀ p ∈ ms.filterMap Mutation.tagAddition?, p.1 ≠ j) :
    (s.afterClose (ms.foldl (fun st m => (st.stage m).1) Staged.empty)).store.get? j =
      some { e with
        value := (EntryStore.lastWrite (ms.filterMap Mutation.valueUpdate?) j).getD e.value } := by
  obtain ⟨hasc, hfind⟩ := Staged.find?_foldl_putEntry (ms.filterMap Mutation.inserted?)
    (List.Pairwise.nil : EntryStore.KeyAscending [])
  have habs : EntryStore.absorbAll none j ((ms.filterMap Mutation.inserted?).foldl
      (fun ds e => Staged.putEntry e ds) []) = some e := by
    rw [EntryStore.absorbAll_of_pairwise hasc.keys_ne, hfind, List.find?_nil, EntryStore.absorbAll,
      hins]
    rfl
  rw [get?_close hl hw hrem, hnone, habs, EntryStore.foldl_onKey_of_forall]
  · rfl
  · intro w hw o
    obtain ⟨p, hp, rfl⟩ := List.mem_map.mp hw
    simp [EntryStore.Write.onKey, htags p hp]

/-- A held key no new entry is under, given a tag, ends with the tag. -/
theorem get?_close_tagged {j : Key} {d : Entry} {t : String} (hd : s.store.get? j = some d)
    (hins : ∀ e ∈ ms.filterMap Mutation.inserted?, e.key ≠ j)
    (ht : (j, t) ∈ ms.filterMap Mutation.tagAddition?) :
    ∃ d', (s.afterClose (ms.foldl (fun st m => (st.stage m).1) Staged.empty)).store.get? j =
      some d' ∧ d'.hasTag t = true := by
  have habs : EntryStore.absorbAll (s.store.get? j) j ((ms.filterMap Mutation.inserted?).foldl
      (fun ds e => Staged.putEntry e ds) []) = s.store.get? j := by
    refine EntryStore.absorbAll_of_forall_ne fun e he => ?_
    have hk := (Staged.mem_keys_foldl_putEntry (ms.filterMap Mutation.inserted?) e.key).mp
      (List.mem_map_of_mem he)
    obtain ⟨e', he', hkey⟩ := List.mem_map.mp hk
    exact hkey ▸ hins e' he'
  rw [get?_close hl hw hrem, habs, hd, Option.map_some]
  exact EntryStore.foldl_onKey_addTag_mem ht _

end Close

end Shard

end ShardStore
