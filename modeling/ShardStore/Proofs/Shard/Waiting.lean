import Mathlib
import ShardStore.Store.Waiters
/-!
The waiter table as a set of pending waiters.

`pending` lists every waiter with the key it waits on. The table is `WellFormed` when no key has
two lists and no list has a waiter twice; registering keeps that, because it appends to the one
list of its key only a waiter not already there, and firing keeps it, because it only drops keys.
On a well-formed table registering adds exactly one pending waiter or none, and firing a key hands
back exactly the waiters pending on it, in the order they registered, and leaves the others.
-/

namespace ShardStore

namespace Waiters

/-- The pending waiters, each with the key it waits on. -/
def pending (w : Waiters) : List (Key × Waiter) := w.byKey.flatMap fun p => p.2.map (p.1, ·)

/-- The wakes of pending waiters. -/
def wakes (ps : List (Key × Waiter)) : List Mutation :=
  ps.map fun p => Mutation.ofWake p.2.subscriber p.2.wake

/-- No key has two lists, and no list has a waiter twice. -/
structure WellFormed (w : Waiters) : Prop where
  keys : (w.byKey.map (·.1)).Nodup
  waiters : ∀ p ∈ w.byKey, p.2.Nodup

theorem mem_pending {w : Waiters} {k : Key} {x : Waiter} :
    (k, x) ∈ w.pending ↔ ∃ ws, (k, ws) ∈ w.byKey ∧ x ∈ ws := by
  simp only [pending, List.mem_flatMap, List.mem_map, Prod.mk.injEq]
  constructor
  · rintro ⟨⟨k', ws⟩, hp, y, hy, rfl, rfl⟩
    exact ⟨ws, hp, hy⟩
  · rintro ⟨ws, hp, hx⟩
    exact ⟨(k, ws), hp, x, hx, rfl, rfl⟩

theorem wellFormed_empty : empty.WellFormed := ⟨List.nodup_nil, nofun⟩

/-- On a well-formed table no waiter is pending twice: the lists are without repeats, and the
pairs from two lists differ in their key. -/
theorem WellFormed.nodup_pending {w : Waiters} (hw : w.WellFormed) : w.pending.Nodup := by
  unfold pending
  rw [List.nodup_flatMap]
  refine ⟨fun p hp => (hw.waiters p hp).map fun a b h => (Prod.mk.inj h).2, ?_⟩
  refine (List.pairwise_map.mp hw.keys).imp fun {a b} hab => ?_
  intro q hqa hqb
  obtain ⟨x, -, rfl⟩ := List.mem_map.mp hqa
  obtain ⟨y, -, hy⟩ := List.mem_map.mp hqb
  exact hab (congrArg Prod.fst hy).symm

/-- On a table with no key twice, the waiters on a key are the pending ones on it. -/
theorem waitingOn_eq {w : Waiters} (hk : (w.byKey.map (·.1)).Nodup) (k : Key) :
    w.waitingOn k = (w.pending.filter (·.1 = k)).map (·.2) := by
  obtain ⟨byKey⟩ := w
  unfold waitingOn pending
  dsimp only
  induction byKey with
  | nil => rfl
  | cons p rest ih =>
    obtain ⟨k', ws⟩ := p
    simp only [List.map_cons, List.nodup_cons] at hk
    rw [List.find?_cons, List.flatMap_cons, List.filter_append, List.map_append]
    by_cases hkk : k' = k
    · -- the list of `k` is this one, and no later pair has `k`
      subst hkk
      have hrest : (rest.flatMap fun p => p.2.map (p.1, ·)).filter (·.1 = k') = [] := by
        rw [List.filter_eq_nil_iff]
        intro q hq
        obtain ⟨p, hp, hq⟩ := List.mem_flatMap.mp hq
        obtain ⟨y, -, rfl⟩ := List.mem_map.mp hq
        have : p.1 ≠ k' := fun h => hk.1 (h ▸ List.mem_map_of_mem hp)
        simpa using this
      simp [hrest, List.filter_map, Function.comp_def, List.filter_true]
    · have hfilter : (ws.map (k', ·)).filter (·.1 = k) = [] := by
        simp [List.filter_eq_nil_iff, hkk]
      simp only [hkk, decide_false, hfilter, List.map_nil, List.nil_append]
      exact ih hk.2

/-- Firing a key leaves the waiters pending on the other keys. -/
theorem pending_fire (w : Waiters) (k : Key) :
    (w.fire k).2.pending = w.pending.filter (·.1 ≠ k) := by
  obtain ⟨byKey⟩ := w
  unfold fire pending
  dsimp only
  induction byKey with
  | nil => rfl
  | cons p rest ih =>
    obtain ⟨k', ws⟩ := p
    by_cases hkk : k' = k
    · subst hkk
      have hws : (ws.map (k', ·)).filter (·.1 ≠ k') = [] := by
        simp [List.filter_eq_nil_iff]
      rw [List.filter_cons_of_neg (by simp), List.flatMap_cons, List.filter_append, hws,
        List.nil_append]
      exact ih
    · have hws : (ws.map (k', ·)).filter (·.1 ≠ k) = ws.map (k', ·) := by
        simp [List.filter_eq_self, hkk]
      rw [List.filter_cons_of_pos (by simpa using hkk), List.flatMap_cons, List.flatMap_cons,
        List.filter_append, hws, ih]

/-- Firing a key hands back the wakes of the waiters pending on it, in registration order. -/
theorem fire_wakes {w : Waiters} (hw : w.WellFormed) (k : Key) :
    (w.fire k).1 = wakes (w.pending.filter (·.1 = k)) := by
  rw [fire, waitingOn_eq hw.keys, wakes, List.map_map]
  rfl

theorem WellFormed.fire {w : Waiters} (hw : w.WellFormed) (k : Key) : (w.fire k).2.WellFormed where
  keys := hw.keys.sublist ((List.filter_sublist).map _)
  waiters := fun p hp => hw.waiters p (List.mem_filter.mp hp).1

section Register

variable {w : Waiters} {k sub : Key} {r : Wake}

/-- The pair `find?` gives is the list of the key. -/
theorem find?_key {k k' : Key} {xs : List Waiter} (h : w.byKey.find? (·.1 = k) = some (k', xs)) :
    k' = k ∧ (k', xs) ∈ w.byKey :=
  ⟨by simpa using List.find?_some h, List.mem_of_find?_eq_some h⟩

/-- Registering puts the waiter in the list of its key, once. -/
theorem mem_pending_register {j : Key} {y : Waiter} :
    (j, y) ∈ (w.register k sub r).pending ↔ (j, y) ∈ w.pending ∨ (j = k ∧ y = ⟨sub, r⟩) := by
  unfold register
  split
  · rename_i k' xs hfind
    obtain ⟨rfl, hmem⟩ := find?_key hfind
    dsimp only
    split
    · -- the waiter is there already
      rename_i hx
      refine ⟨.inl, fun h => h.elim id fun ⟨hj, hy⟩ => ?_⟩
      subst hj hy
      exact mem_pending.mpr ⟨xs, hmem, by simpa using hx⟩
    · simp only [mem_pending, List.mem_map]
      constructor
      · rintro ⟨ws, ⟨⟨j', ys⟩, hp, hpe⟩, hy⟩
        by_cases hj : j' = k'
        · simp only [hj, if_true, Prod.mk.injEq] at hpe
          obtain ⟨rfl, rfl⟩ := hpe
          rcases List.mem_append.mp hy with hy | hy
          · exact .inl ⟨ys, hj ▸ hp, hy⟩
          · exact .inr ⟨rfl, by simpa using hy⟩
        · simp only [hj, if_false, Prod.mk.injEq] at hpe
          obtain ⟨rfl, rfl⟩ := hpe
          exact .inl ⟨_, hp, hy⟩
      · rintro (⟨ws, hp, hy⟩ | ⟨rfl, rfl⟩)
        · by_cases hj : j = k'
          · exact ⟨ws ++ [⟨sub, r⟩], ⟨(j, ws), hp, by simp [hj]⟩, List.mem_append_left _ hy⟩
          · exact ⟨ws, ⟨(j, ws), hp, by simp [hj]⟩, hy⟩
        · exact ⟨xs ++ [⟨sub, r⟩], ⟨(j, xs), hmem, by simp⟩, by simp⟩
  · simp only [mem_pending, List.mem_append, List.mem_singleton, Prod.mk.injEq]
    constructor
    · rintro ⟨ws, hp | ⟨rfl, rfl⟩, hy⟩
      · exact .inl ⟨ws, hp, hy⟩
      · exact .inr ⟨rfl, by simpa using hy⟩
    · rintro (⟨ws, hp, hy⟩ | ⟨rfl, rfl⟩)
      · exact ⟨ws, .inl hp, hy⟩
      · exact ⟨[⟨sub, r⟩], .inr ⟨rfl, rfl⟩, List.mem_singleton_self _⟩

theorem WellFormed.register (hw : w.WellFormed) : (w.register k sub r).WellFormed := by
  unfold Waiters.register
  split
  · rename_i k' xs hfind
    obtain ⟨rfl, hmem⟩ := find?_key hfind
    dsimp only
    split
    · exact hw
    · rename_i hx
      refine ⟨?_, fun p hp => ?_⟩
      · -- the keys stay as they were
        have hkeys : (w.byKey.map fun q => if q.1 = k' then (q.1, q.2 ++ [⟨sub, r⟩]) else q).map
            (·.1) = w.byKey.map (·.1) := by
          rw [List.map_map]
          exact List.map_congr_left fun q _ => by by_cases h : q.1 = k' <;> simp [h]
        simpa [hkeys] using hw.keys
      · obtain ⟨q, hq, rfl⟩ := List.mem_map.mp hp
        by_cases hqk : q.1 = k'
        · -- the one list of the key gets a waiter it lacked
          obtain rfl : q = (k', xs) := List.inj_on_of_nodup_map hw.keys hq hmem hqk
          simp only [↓reduceIte]
          refine List.nodup_append.mpr ⟨hw.waiters _ hmem, List.nodup_singleton _, ?_⟩
          intro a ha b hb
          rw [List.mem_singleton] at hb
          subst hb
          exact fun h => hx (by simpa [h] using ha)
        · simp only [hqk, if_false]
          exact hw.waiters q hq
  · rename_i hnone
    refine ⟨?_, fun p hp => ?_⟩
    · rw [List.map_append, List.nodup_append]
      refine ⟨hw.keys, List.nodup_singleton _, fun a ha b hb => ?_⟩
      rw [List.map_cons, List.map_nil, List.mem_singleton] at hb
      subst hb
      obtain ⟨q, hq, rfl⟩ := List.mem_map.mp ha
      intro h
      rw [List.find?_eq_none] at hnone
      exact hnone q hq (by simpa using h)
    · rcases List.mem_append.mp hp with hp | hp
      · exact hw.waiters p hp
      · rw [List.mem_singleton] at hp
        subst hp
        exact List.nodup_singleton _

end Register

end Waiters

end ShardStore
