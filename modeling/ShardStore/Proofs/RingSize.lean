import Mathlib
import ShardStore.Proofs.Ring
/-!
How many positions a ring has.

A ring built for a list of agents with `v` virtual nodes each holds one position per distinct
agent and distinct packed word. The packed word of a position puts the virtual-node number at bit
49 of a 64-bit word, so only the number's low fifteen bits survive: numbers `2 ^ 15` apart pack
one word, and an agent has at most `2 ^ 15` positions however many virtual nodes it is given.
Sorting places equal words side by side, and dropping each position whose word equals its
predecessor's leaves the sorted positions strictly ascending, so no position stands twice. A
ring therefore holds `|agents| * min (max v 1) 2 ^ 15` positions, for every position hash.
-/

namespace ShardStore

namespace Address

/-- A packed position as a number: the serial, with the low fifteen bits of the virtual-node
number from bit 49 up. -/
theorem toNat_packVirtual (a : Address) (v : UInt16) :
    (packVirtual a.serial v).toNat = a.serial.toNat + v.toNat % 32768 * 2 ^ 49 := by
  have hs : a.serial.toNat < 2 ^ 49 := by
    have := a.ip.toNat_lt
    have := a.slot.toNat_lt
    rw [toNat_serial]
    omega
  -- the top bit of the number is shifted out of the word
  have hv : (v.toUInt64 <<< (49 : UInt64)).toNat = v.toNat % 32768 * 2 ^ 49 := by
    have h49 : (49 : UInt64).toNat % 64 = 49 := rfl
    rw [UInt64.toNat_shiftLeft, Nat.shiftLeft_eq, h49, UInt16.toNat_toUInt64,
      show (2 : Nat) ^ 64 = 32768 * 2 ^ 49 by norm_num, Nat.mul_mod_mul_right]
  rw [packVirtual, virtualShift, UInt64.toNat_or, hv, Nat.lor_comm, ← Nat.shiftLeft_eq,
    ← Nat.shiftLeft_add_eq_or_of_lt hs, Nat.shiftLeft_eq, Nat.add_comm]

/-- Two packed positions are one word exactly when they pack one address with virtual-node
numbers equal below bit fifteen. -/
theorem packVirtual_eq_iff {a b : Address} {i j : UInt16} :
    packVirtual a.serial i = packVirtual b.serial j ↔
      a = b ∧ i.toNat % 32768 = j.toNat % 32768 := by
  constructor
  · intro h
    obtain rfl : a = b := serial_inj (by
      rw [← unpackVirtual_packVirtual a i, h, unpackVirtual_packVirtual])
    have h' := congrArg UInt64.toNat h
    rw [toNat_packVirtual, toNat_packVirtual] at h'
    exact ⟨rfl, by omega⟩
  · rintro ⟨rfl, hij⟩
    apply UInt64.toNat_inj.mp
    rw [toNat_packVirtual, toNat_packVirtual, hij]

end Address

namespace Ring

/-! ### The positions of one agent -/

/-- The position of an agent at its `i`-th virtual node. -/
def spotAt (hash : UInt64 → UInt64) (a : Address) (i : Nat) : Position :=
  let packed := Address.packVirtual a.serial i.toUInt16
  ⟨hash packed, packed, a⟩

theorem rawPositions_eq (hash : UInt64 → UInt64) (vnodes : UInt16) (agents : List Address) :
    rawPositions hash vnodes agents =
      agents.flatMap fun a => (List.range vnodes.toNat).map (spotAt hash a) := rfl

/-- Virtual nodes `2 ^ 15` apart stand an agent at one position. -/
theorem spotAt_mod (hash : UInt64 → UInt64) (a : Address) (i : Nat) :
    spotAt hash a (i % 32768) = spotAt hash a i := by
  have hw : Address.packVirtual a.serial (i % 32768).toUInt16 =
      Address.packVirtual a.serial i.toUInt16 := by
    refine Address.packVirtual_eq_iff.mpr ⟨rfl, ?_⟩
    simp only [Nat.toUInt16_eq, UInt16.toNat_ofNat']
    omega
  simp only [spotAt, hw]

/-- Below `2 ^ 15`, distinct agents or virtual nodes stand at distinct positions. -/
theorem spotAt_injOn (hash : UInt64 → UInt64) :
    Set.InjOn (fun ai : Address × Nat => spotAt hash ai.1 ai.2) {ai | ai.2 < 32768} := by
  rintro ⟨a, i⟩ hi ⟨b, j⟩ hj h
  simp only [Set.mem_ofPred_eq] at hi hj
  have hw := Address.packVirtual_eq_iff.mp (congrArg Position.packed h)
  simp only [Nat.toUInt16_eq, UInt16.toNat_ofNat'] at hw
  obtain ⟨rfl, hij⟩ := hw
  simp only [Prod.mk.injEq, true_and]
  omega

/-- The positions of the listed agents are those of the distinct agents at their first `2 ^ 15`
virtual nodes, and no two of those coincide. -/
theorem card_rawPositions (hash : UInt64 → UInt64) (vnodes : UInt16) (agents : List Address) :
    (rawPositions hash vnodes agents).toFinset.card =
      agents.toFinset.card * min vnodes.toNat 32768 := by
  have himage : (rawPositions hash vnodes agents).toFinset =
      (agents.toFinset ×ˢ Finset.range (min vnodes.toNat 32768)).image
        fun ai => spotAt hash ai.1 ai.2 := by
    ext p
    simp only [rawPositions_eq, List.mem_toFinset, List.mem_flatMap, List.mem_map, List.mem_range,
      Finset.mem_image, Finset.mem_product, Finset.mem_range, Prod.exists]
    constructor
    · rintro ⟨a, ha, i, hi, rfl⟩
      exact ⟨a, i % 32768, ⟨ha, by omega⟩, spotAt_mod hash a i⟩
    · rintro ⟨a, i, ⟨ha, hi⟩, rfl⟩
      exact ⟨a, ha, i, by omega, rfl⟩
  rw [himage, Finset.card_image_of_injOn, Finset.card_product, Finset.card_range]
  exact (spotAt_injOn hash).mono fun ai hai => by
    simp only [Finset.coe_product, Set.mem_prod, Finset.mem_coe, Finset.mem_range] at hai
    exact lt_of_lt_of_le hai.2 (min_le_right _ _)

/-! ### No position twice -/

/-- Neighbours with different words. -/
abbrev Distinct (p q : Position) : Prop := p.packed ≠ q.packed

/-- Keeping a position pushes it only after a position with another word. -/
theorem keepNew_isChain {kept : Array Position} (h : kept.toList.IsChain Distinct)
    (p : Position) : (keepNew kept p).toList.IsChain Distinct := by
  unfold keepNew
  split
  · rename_i q hq
    split
    · exact h
    · rename_i hne
      rw [Array.toList_push, List.isChain_append]
      refine ⟨h, .singleton p, fun x hx y hy => ?_⟩
      rw [Array.getLast?_toList, hq, Option.mem_some_iff] at hx
      rw [List.head?_singleton, Option.mem_some_iff] at hy
      subst hx hy
      simpa using hne
  · rename_i hnone
    have hnil : kept.toList = [] := by
      rw [← List.getLast?_eq_none_iff, Array.getLast?_toList, hnone]
    rw [Array.toList_push, hnil]
    exact .singleton p

theorem foldl_keepNew_isChain :
    ∀ (rest : List Position) {kept : Array Position}, kept.toList.IsChain Distinct →
      (rest.foldl keepNew kept).toList.IsChain Distinct
  | [], _, h => h
  | p :: rest, _, h => foldl_keepNew_isChain rest (keepNew_isChain h p)

/-- Dropping repeated words leaves neighbours with different words. -/
theorem dedup_isChain (l : List Position) : (dedup l.toArray).toList.IsChain Distinct := by
  rw [dedup, List.foldl_toArray]
  exact foldl_keepNew_isChain l .nil

/-- A sorted list whose neighbours have different words is strictly ascending. -/
theorem strict_of_isChain : ∀ {l : List Position}, l.Pairwise (fun p q => p.le q = true) →
    l.IsChain Distinct → l.Pairwise (fun p q => q.le p = false)
  | [], _, _ => .nil
  | [_], _, _ => List.pairwise_singleton _ _
  | x :: y :: ys, hs, hc => by
    obtain ⟨hxs, hs'⟩ := List.pairwise_cons.mp hs
    have hxy : x.le y = true := hxs y List.mem_cons_self
    have hne : x.packed ≠ y.packed := (List.isChain_cons_cons.mp hc).1
    have ih := strict_of_isChain hs' (List.isChain_cons_cons.mp hc).2
    -- positions each before the other share their word, so `y` is strictly after `x`
    have hyx : y.le x = false := Bool.eq_false_iff.mpr fun h =>
      hne (Position.eq_of_le_of_le hxy h).2
    refine List.Pairwise.cons (fun z hz => ?_) ih
    rcases List.mem_cons.mp hz with rfl | hz
    · exact hyx
    · -- `z` is strictly after `y`, which is after `x`
      refine Bool.eq_false_iff.mpr fun hzx => ?_
      have hzy : z.le y = false := (List.pairwise_cons.mp ih).1 z hz
      rw [Position.le_trans hzx hxy] at hzy
      cases hzy

/-- A built ring holds no position twice. -/
theorem nodup_positions_build (r : Ring) (agents : List Address) (hash : UInt64 → UInt64) :
    (r.build agents hash).positions.toList.Nodup := by
  have hstrict := strict_of_isChain (positions_build r agents hash).1 (dedup_isChain _)
  exact hstrict.imp fun h heq => by rw [heq, Position.le_refl] at h; cases h

/-- The size of a ring. Whatever the position hash, a ring built for a list of agents with `v`
virtual nodes each holds `min (max v 1) 2 ^ 15` positions for each distinct agent listed, and
holds each packed word once. The cap is the packing: a virtual-node number keeps only its low
fifteen bits in the word, so numbers `2 ^ 15` apart pack one word, just as an agent listed twice
packs the words it packed the first time. -/
theorem size_build (hash : UInt64 → UInt64) (v : UInt16) (agents : List Address) :
    ((Ring.empty v).build agents hash).size = agents.toFinset.card * min (max v.toNat 1) 32768 ∧
      (((Ring.empty v).build agents hash).positions.toList.map (·.packed)).Nodup ∧
      ∀ (a b : Address) (i j : UInt16), Address.packVirtual a.serial i =
        Address.packVirtual b.serial j ↔ a = b ∧ i.toNat % 32768 = j.toNat % 32768 := by
  have hS := (positions_build (Ring.empty v) agents hash).2
  have hnodup := nodup_positions_build (Ring.empty v) agents hash
  have hsame : ((Ring.empty v).build agents hash).positions.toList.toFinset =
      (rawPositions hash (max v 1) agents).toFinset := by
    ext p
    rw [List.mem_toFinset, List.mem_toFinset, Array.mem_toList_iff, hS, mem_rawPositions]
    rfl
  refine ⟨?_, hnodup.map_on fun p hp q hq h => ?_, fun _ _ _ _ => Address.packVirtual_eq_iff⟩
  · calc ((Ring.empty v).build agents hash).size
        = ((Ring.empty v).build agents hash).positions.toList.toFinset.card := by
          rw [List.toFinset_card_of_nodup hnodup, Array.length_toList]
          rfl
      _ = agents.toFinset.card * min (max v 1).toNat 32768 := by rw [hsame, card_rawPositions]
      _ = agents.toFinset.card * min (max v.toNat 1) 32768 := by rw [UInt16.toNat_max]; rfl
  · -- two positions of the ring with one word are one position
    exact Spot.eq_of_packed ((hS p).mp (Array.mem_toList_iff.mp hp))
      ((hS q).mp (Array.mem_toList_iff.mp hq)) h

end Ring

end ShardStore
