import ShardStore.Ring
import ShardStore.Proofs.Wire.Frames
/-!
Who owns a hash.

A ring built from a membership list stands each listed agent at one position per virtual node,
and a hash belongs to the agent of the first position at or past it, wrapping round to the first
position. This is proved here of the ring as it is built and searched, for every position hash:
the sorted and deduplicated positions are exactly the positions of the listed agents, so the
binary search finds the least position, in (place, packed word) order, whose place is at least
the hash, or the least position of all when there is none.

Two facts carry it. A packed word names its agent, since unpacking it gives back the agent's
serial; so two positions with one word are one position, and dropping repeated words loses no
agent. And the positions come out sorted, so the search splits them into those placed before the
hash and those at or past it.

The owner is therefore fixed by the set of agents listed, whatever their order and repeats, and
when agents join, a hash either keeps its owner or goes to a newcomer.
-/

namespace ShardStore

namespace Address

theorem serial_inj {a b : Address} (h : a.serial = b.serial) : a = b := by
  rw [← ofSerial_serial a, h, ofSerial_serial]

/-- Unpacking a ring position gives back the serial it was packed from: the serial fills bits 0
to 47, and the virtual-node number starts at bit 49. -/
theorem unpackVirtual_packVirtual (a : Address) (v : UInt16) :
    unpackVirtual (packVirtual a.serial v) = a.serial := by
  apply UInt64.toNat_inj.mp
  have hmask : ((1 : UInt64) <<< 49 - 1).toNat = 2 ^ 49 - 1 := by decide
  have hs : a.serial.toNat < 2 ^ 48 := by
    have := a.ip.toNat_lt
    have := a.slot.toNat_lt
    rw [toNat_serial]
    omega
  have hv : (v.toUInt64 <<< (49 : UInt64)).toNat % 2 ^ 49 = 0 := by
    rw [UInt64.toNat_shiftLeft, Nat.mod_mod_of_dvd _ (by decide), Nat.shiftLeft_eq]
    exact Nat.mul_mod_left _ _
  rw [unpackVirtual, packVirtual, agentMask, virtualShift, UInt64.toNat_and, hmask,
    Nat.and_two_pow_sub_one_eq_mod, UInt64.toNat_or, Nat.or_mod_two_pow, hv, Nat.or_zero,
    Nat.mod_eq_of_lt (by omega)]

end Address

namespace Ring

/-! ### The positions of a membership list -/

/-- The positions of the agents of a list, `vnodes` each, placed by `hash`: the agent is listed,
its word is its serial packed with a virtual node below `vnodes`, and its place is the word's
hash. -/
def Spot (hash : UInt64 → UInt64) (vnodes : UInt16) (agents : List Address) (p : Position) :
    Prop :=
  p.agent ∈ agents ∧ ∃ i : UInt16, i < vnodes ∧
    p.packed = Address.packVirtual p.agent.serial i ∧ p.place = hash p.packed

/-- `q` owns the hash `h` among the positions `S`: it is the least position, in (place, packed
word) order, whose place is at least `h`, or the least of all when no place is at least `h`. -/
def Owns (S : Position → Prop) (h : UInt64) (q : Position) : Prop :=
  S q ∧ ((h ≤ q.place ∧ ∀ p, S p → h ≤ p.place → q.le p) ∨
    ((∀ p, S p → p.place < h) ∧ ∀ p, S p → q.le p))

variable {hash : UInt64 → UInt64} {vnodes : UInt16} {agents : List Address}

/-- Two positions of listed agents with one packed word are one position: the word unpacks to
the agent's serial, and the place is the word's hash. -/
theorem Spot.eq_of_packed {p q : Position} (hp : Spot hash vnodes agents p)
    (hq : Spot hash vnodes agents q) (h : p.packed = q.packed) : p = q := by
  obtain ⟨-, i, -, hpi, hpp⟩ := hp
  obtain ⟨-, j, -, hqj, hqp⟩ := hq
  have hagent : p.agent = q.agent := by
    apply Address.serial_inj
    rw [← Address.unpackVirtual_packVirtual p.agent i,
      ← Address.unpackVirtual_packVirtual q.agent j, ← hpi, ← hqj, h]
  obtain ⟨pp, pk, pa⟩ := p
  obtain ⟨qp, qk, qa⟩ := q
  simp only at h hagent hpp hqp
  subst h hagent
  rw [hpp, hqp]

/-- Lists of the same agents have the same positions. -/
theorem spot_eq_of_mem_iff {agents' : List Address} (h : ∀ a, a ∈ agents' ↔ a ∈ agents) :
    Spot hash vnodes agents' = Spot hash vnodes agents := by
  funext p
  rw [Spot, Spot, h]

/-- The raw positions, before sorting, are the positions of the listed agents. -/
theorem mem_rawPositions {p : Position} :
    p ∈ rawPositions hash vnodes agents ↔ Spot hash vnodes agents p := by
  simp only [rawPositions, List.mem_flatMap, List.mem_map, List.mem_range]
  constructor
  · rintro ⟨a, ha, v, hv, rfl⟩
    have hv' : v < 65536 := by have := vnodes.toNat_lt; omega
    refine ⟨ha, v.toUInt16, ?_, rfl, rfl⟩
    rw [UInt16.lt_iff_toNat_lt]
    simpa [Nat.mod_eq_of_lt hv'] using hv
  · rintro ⟨ha, i, hi, hpk, hpl⟩
    refine ⟨p.agent, ha, i.toNat, UInt16.lt_iff_toNat_lt.mp hi, ?_⟩
    obtain ⟨pl, pk, pa⟩ := p
    simp only at hpk hpl
    subst hpk hpl
    simp

/-! ### The order of positions -/

namespace Position

theorem le_iff {p q : Position} :
    p.le q = true ↔ p.place < q.place ∨ (p.place = q.place ∧ p.packed ≤ q.packed) := by
  simp [Position.le]

theorem le_iff_toNat {p q : Position} :
    p.le q = true ↔ p.place.toNat < q.place.toNat ∨
      (p.place.toNat = q.place.toNat ∧ p.packed.toNat ≤ q.packed.toNat) := by
  rw [le_iff, UInt64.lt_iff_toNat_lt, UInt64.le_iff_toNat_le, UInt64.toNat_inj]

theorem le_refl (p : Position) : p.le p = true := by
  rw [le_iff_toNat]
  omega

theorem le_trans {p q r : Position} (h₁ : p.le q = true) (h₂ : q.le r = true) :
    p.le r = true := by
  rw [le_iff_toNat] at *
  omega

theorem le_total (p q : Position) : (p.le q || q.le p) = true := by
  rw [Bool.or_eq_true, le_iff_toNat, le_iff_toNat]
  omega

theorem place_le_of_le {p q : Position} (h : p.le q = true) : p.place ≤ q.place := by
  rw [le_iff_toNat] at h
  rw [UInt64.le_iff_toNat_le]
  omega

/-- Positions each before the other have one place and one word. -/
theorem eq_of_le_of_le {p q : Position} (h₁ : p.le q = true) (h₂ : q.le p = true) :
    p.place = q.place ∧ p.packed = q.packed := by
  rw [le_iff_toNat] at h₁ h₂
  rw [← UInt64.toNat_inj, ← UInt64.toNat_inj]
  omega

end Position

/-! ### Sorting and dropping repeated words -/

/-- Keeping a position either adds it, or leaves the kept positions as they are, one of which has
its word. -/
theorem keepNew_cases (kept : Array Position) (p : Position) :
    keepNew kept p = kept.push p ∨
      (keepNew kept p = kept ∧ ∃ q ∈ kept, q.packed = p.packed) := by
  unfold keepNew
  split
  · rename_i q hq
    split
    · rename_i he
      exact .inr ⟨rfl, q, Array.mem_of_back? hq, beq_iff_eq.mp he⟩
    · exact .inl rfl
  · exact .inl rfl

/-- Among positions no two of which share a word, keeping them one by one keeps a sublist of
those seen, and keeps every position seen: one dropped has the word of one kept, so it is that
one. -/
theorem foldl_keepNew {C : Position → Prop}
    (hC : ∀ p q, C p → C q → p.packed = q.packed → p = q) :
    ∀ (rest pre : List Position) (kept : Array Position), (∀ x ∈ pre ++ rest, C x) →
      kept.toList.Sublist pre → (∀ x ∈ pre, x ∈ kept) →
      (rest.foldl keepNew kept).toList.Sublist (pre ++ rest) ∧
        ∀ x ∈ pre ++ rest, x ∈ rest.foldl keepNew kept
  | [], pre, kept, _, hsub, hall => by simpa using ⟨hsub, hall⟩
  | p :: rest, pre, kept, hc, hsub, hall => by
    have hstep : (keepNew kept p).toList.Sublist (pre ++ [p]) ∧
        ∀ x ∈ pre ++ [p], x ∈ keepNew kept p := by
      rcases keepNew_cases kept p with h | ⟨h, q, hq, hqp⟩
      · rw [h, Array.toList_push]
        refine ⟨hsub.append (List.Sublist.refl _), fun x hx => ?_⟩
        rcases List.mem_append.mp hx with hx | hx
        · exact Array.mem_push.mpr (.inl (hall x hx))
        · exact Array.mem_push.mpr (.inr (List.mem_singleton.mp hx))
      · have hqpre : q ∈ pre := hsub.subset (Array.mem_toList_iff.mpr hq)
        have hpq : p = q :=
          hC p q (hc p (by simp)) (hc q (by simp [hqpre])) hqp.symm
        rw [h]
        refine ⟨hsub.trans (List.sublist_append_left _ _), fun x hx => ?_⟩
        rcases List.mem_append.mp hx with hx | hx
        · exact hall x hx
        · rw [List.mem_singleton.mp hx, hpq]
          exact hq
    have h := foldl_keepNew hC rest (pre ++ [p]) (keepNew kept p) (by simpa using hc) hstep.1
      hstep.2
    simpa using h

/-- Dropping repeated words from positions no two of which share a word keeps a sublist holding
every one of them. -/
theorem dedup_spec {C : Position → Prop}
    (hC : ∀ p q, C p → C q → p.packed = q.packed → p = q) {l : List Position}
    (hl : ∀ x ∈ l, C x) :
    (dedup l.toArray).toList.Sublist l ∧ ∀ x, x ∈ dedup l.toArray ↔ x ∈ l := by
  have h := foldl_keepNew hC l [] #[] (by simpa using hl) (by simp) (by simp)
  rw [List.nil_append] at h
  rw [dedup, List.foldl_toArray]
  exact ⟨h.1, fun x => ⟨fun hx => h.1.subset (Array.mem_toList_iff.mpr hx), h.2 x⟩⟩

/-- The positions of a built ring are sorted, and are exactly the positions of the listed
agents. -/
theorem positions_build (r : Ring) (agents : List Address) (hash : UInt64 → UInt64) :
    (r.build agents hash).positions.toList.Pairwise (fun p q => p.le q = true) ∧
      ∀ p, p ∈ (r.build agents hash).positions ↔ Spot hash r.vnodes agents p := by
  have hsorted : ((rawPositions hash r.vnodes agents).mergeSort Position.le).Pairwise
      (fun p q => p.le q = true) :=
    @List.pairwise_mergeSort _ Position.le (fun _ _ _ => Position.le_trans) Position.le_total _
  have hsame : ∀ x, x ∈ (rawPositions hash r.vnodes agents).mergeSort Position.le ↔
      Spot hash r.vnodes agents x :=
    fun x => List.mem_mergeSort.trans mem_rawPositions
  obtain ⟨hsub, hmem⟩ :=
    dedup_spec (fun p q hp hq => Spot.eq_of_packed hp hq) fun x hx => (hsame x).mp hx
  exact ⟨hsorted.sublist hsub, fun p => (hmem p).trans (hsame p)⟩

/-! ### The search -/

section Search

variable {ps : Array Position} {h : UInt64}

theorem le_of_index (hs : ps.toList.Pairwise (fun p q => p.le q = true)) {i j : Nat}
    (hi : i < ps.size) (hj : j < ps.size) (hij : i ≤ j) : ps[i].le ps[j] = true := by
  rcases Nat.eq_or_lt_of_le hij with rfl | hlt
  · exact Position.le_refl _
  · have := List.pairwise_iff_getElem.mp hs i j (by simpa using hi) (by simpa using hj) hlt
    simpa using this

/-- On positions sorted by place, the search between `lo` and `hi` returns the index splitting
those placed before `h` from those at or past it, provided the positions below `lo` are before
`h` and those from `hi` on are not. The search keeps that split of `[lo, hi)` as it halves it. -/
theorem firstAtLeast_spec (hs : ps.toList.Pairwise (fun p q => p.le q = true)) (lo hi : Nat)
    (hle : lo ≤ hi) (hsize : hi ≤ ps.size)
    (hlow : ∀ j (hj : j < ps.size), j < lo → ps[j].place < h)
    (hhigh : ∀ j (hj : j < ps.size), hi ≤ j → h ≤ ps[j].place) :
    firstAtLeast ps h lo hi ≤ ps.size ∧
      (∀ j (hj : j < ps.size), j < firstAtLeast ps h lo hi → ps[j].place < h) ∧
      (∀ j (hj : j < ps.size), firstAtLeast ps h lo hi ≤ j → h ≤ ps[j].place) := by
  fun_induction firstAtLeast ps h lo hi with
  | case1 lo hi hlt mid hmid ih =>
    have hm : mid < ps.size := by omega
    rw [getElem?_pos ps mid hm, Option.map_some, Option.getD_some] at hmid
    refine ih (by omega) hsize (fun j hj hjm => ?_) hhigh
    by_cases hjlo : j < lo
    · exact hlow j hj hjlo
    · exact UInt64.lt_of_le_of_lt (Position.place_le_of_le (le_of_index hs hj hm (by omega))) hmid
  | case2 lo hi hlt mid hmid ih =>
    have hm : mid < ps.size := by omega
    rw [getElem?_pos ps mid hm, Option.map_some, Option.getD_some] at hmid
    refine ih (by omega) (by omega) hlow (fun j hj hjm => ?_)
    exact UInt64.le_trans (UInt64.not_lt.mp hmid)
      (Position.place_le_of_le (le_of_index hs hm hj hjm))
  | case3 lo hi hge => exact ⟨by omega, hlow, fun j hj hjl => hhigh j hj (by omega)⟩

end Search

/-- A lookup on sorted positions: the ring is empty and refuses, or the hash goes to the agent of
the position owning it. -/
theorem lookup_of_sorted (r : Ring) {S : Position → Prop}
    (hs : r.positions.toList.Pairwise (fun p q => p.le q = true))
    (hS : ∀ p, p ∈ r.positions ↔ S p) (h : UInt64) :
    (r.lookup h = .error .emptyRing ∧ ∀ p, ¬S p) ∨
      ∃ q, Owns S h q ∧ r.lookup h = .ok q.agent := by
  obtain ⟨hle, hbelow, hat⟩ := firstAtLeast_spec (h := h) hs 0 r.positions.size (Nat.zero_le _)
    (Nat.le_refl _) (fun j _ hj => absurd hj (Nat.not_lt_zero j)) (fun j hj hsj => by omega)
  have hin : ∀ p, S p → ∃ j, ∃ hj : j < r.positions.size, r.positions[j] = p :=
    fun p hp => Array.mem_iff_getElem.mp ((hS p).mpr hp)
  unfold lookup
  dsimp only
  split
  · -- a position at or past the hash: it is the least of those
    rename_i p hp
    obtain ⟨hi, rfl⟩ := Array.getElem?_eq_some_iff.mp hp
    refine .inr ⟨_, ⟨(hS _).mp (Array.getElem_mem hi),
      .inl ⟨hat _ hi (Nat.le_refl _), ?_⟩⟩, rfl⟩
    intro q hq hqh
    obtain ⟨j, hj, rfl⟩ := hin q hq
    refine le_of_index hs hi hj (Nat.le_of_not_lt fun hji => ?_)
    exact absurd (hbelow j hj hji) (UInt64.not_lt.mpr hqh)
  · -- every position is before the hash: the first one is the least of all
    rename_i p hnone hp
    have hall : r.positions.size ≤ firstAtLeast r.positions h 0 r.positions.size :=
      Array.getElem?_eq_none_iff.mp hnone
    obtain ⟨h0, rfl⟩ := Array.getElem?_eq_some_iff.mp hp
    refine .inr ⟨_, ⟨(hS _).mp (Array.getElem_mem h0),
      .inr ⟨fun q hq => ?_, fun q hq => ?_⟩⟩, rfl⟩
    · obtain ⟨j, hj, rfl⟩ := hin q hq
      exact hbelow j hj (by omega)
    · obtain ⟨j, hj, rfl⟩ := hin q hq
      exact le_of_index hs h0 hj (Nat.zero_le j)
  · -- no position at all
    rename_i hnone h0
    have hempty : r.positions.size = 0 := by
      have := Array.getElem?_eq_none_iff.mp h0
      omega
    refine .inl ⟨rfl, fun p hp => ?_⟩
    obtain ⟨j, hj, -⟩ := hin p hp
    omega

/-! ### The owner of a hash -/

namespace Owns

variable {S S' : Position → Prop} {h : UInt64} {q q' : Position}

/-- The owner is unique among positions no two of which share a word. -/
theorem unique (hS : ∀ p p', S p → S p' → p.packed = p'.packed → p = p') (h₁ : Owns S h q)
    (h₂ : Owns S h q') : q = q' := by
  obtain ⟨hq, h₁⟩ := h₁
  obtain ⟨hq', h₂⟩ := h₂
  have hle : q.le q' = true ∧ q'.le q = true := by
    rcases h₁ with ⟨hqh, hmin⟩ | ⟨hnone, hmin⟩ <;>
      rcases h₂ with ⟨hqh', hmin'⟩ | ⟨hnone', hmin'⟩
    · exact ⟨hmin q' hq' hqh', hmin' q hq hqh⟩
    · exact absurd (hnone' q hq) (UInt64.not_lt.mpr hqh)
    · exact absurd (hnone q' hq') (UInt64.not_lt.mpr hqh')
    · exact ⟨hmin q' hq', hmin' q hq⟩
  exact hS q q' hq hq' (Position.eq_of_le_of_le hle.1 hle.2).2

/-- The owner among the positions of listed agents is unique. -/
theorem unique_spot (h₁ : Owns (Spot hash vnodes agents) h q)
    (h₂ : Owns (Spot hash vnodes agents) h q') : q = q' :=
  unique (fun _ _ hp hp' => Spot.eq_of_packed hp hp') h₁ h₂

/-- The owner among more positions, when it is one of fewer, owns the hash among the fewer. -/
theorem of_subset (hsub : ∀ p, S p → S' p) (h' : Owns S' h q) (hq : S q) : Owns S h q := by
  obtain ⟨-, ⟨hqh, hmin⟩ | ⟨hnone, hmin⟩⟩ := h'
  · exact ⟨hq, .inl ⟨hqh, fun p hp => hmin p (hsub p hp)⟩⟩
  · exact ⟨hq, .inr ⟨fun p hp => hnone p (hsub p hp), fun p hp => hmin p (hsub p hp)⟩⟩

end Owns

/-- A ring stands every agent at one virtual node at least. -/
theorem vnodes_empty_pos (v : UInt16) : 0 < (Ring.empty v).vnodes := by
  show 0 < (if v ≤ 1 then 1 else v)
  split
  · decide
  · rename_i hv
    rw [UInt16.le_iff_toNat_le] at hv
    rw [UInt16.lt_iff_toNat_lt]
    simp only [UInt16.toNat_one, UInt16.toNat_zero] at hv ⊢
    omega

/-- A ring built for a list: empty and refusing when the list is empty, and otherwise answering
the agent of the position owning the hash among the listed agents' positions. -/
theorem lookup_build (v : UInt16) (agents : List Address) (hash : UInt64 → UInt64) (h : UInt64) :
    (agents = [] ∧ ((Ring.empty v).build agents hash).lookup h = .error .emptyRing) ∨
      (agents ≠ [] ∧ ∃ q, Owns (Spot hash (max v 1) agents) h q ∧
        ((Ring.empty v).build agents hash).lookup h = .ok q.agent) := by
  obtain ⟨hs, hS⟩ := positions_build (Ring.empty v) agents hash
  rcases lookup_of_sorted _ hs hS h with ⟨herr, hnone⟩ | howns
  · -- every listed agent stands at its first virtual node
    refine .inl ⟨List.eq_nil_iff_forall_not_mem.mpr fun a ha => hnone
      ⟨hash (Address.packVirtual a.serial 0), Address.packVirtual a.serial 0, a⟩ ?_, herr⟩
    exact ⟨ha, 0, vnodes_empty_pos v, rfl, rfl⟩
  · obtain ⟨q, hq, hl⟩ := howns
    exact .inr ⟨List.ne_nil_of_mem hq.1.1, q, hq, hl⟩

/-- The owner of a hash is its successor among the listed agents' positions. Whatever the
position hash, a ring built for a list refuses a lookup exactly when the list is empty; otherwise
the hash goes to the agent of the least position, in (place, packed word) order, placed at or
past the hash, or of the least position of all when none is. So the owner depends on the set of
agents listed, not on their order or repeats, and is one of them. -/
theorem lookup_eq_successor (hash : UInt64 → UInt64) (agents : List Address) (v : UInt16)
    (h : UInt64) :
    (((Ring.empty v).build agents hash).lookup h = .error .emptyRing ↔ agents = []) ∧
      (agents = [] ∨ ∃ q, Owns (Spot hash (max v 1) agents) h q ∧
        ((Ring.empty v).build agents hash).lookup h = .ok q.agent) ∧
      (∀ agents' : List Address, (∀ a, a ∈ agents' ↔ a ∈ agents) →
        ((Ring.empty v).build agents' hash).lookup h =
          ((Ring.empty v).build agents hash).lookup h) ∧
      (∀ a, ((Ring.empty v).build agents hash).lookup h = .ok a → a ∈ agents) := by
  refine ⟨?_, ?_, fun agents' hsame => ?_, fun a ha => ?_⟩
  · rcases lookup_build v agents hash h with ⟨hnil, herr⟩ | ⟨hne, q, -, hok⟩
    · exact iff_of_true herr hnil
    · rw [hok]
      exact iff_of_false nofun hne
  · rcases lookup_build v agents hash h with ⟨hnil, -⟩ | ⟨-, howns⟩
    · exact .inl hnil
    · exact .inr howns
  · -- the two lists have the same positions, so the same owner
    rcases lookup_build v agents' hash h with ⟨hnil', herr'⟩ | ⟨hne', q', hq', hok'⟩ <;>
      rcases lookup_build v agents hash h with ⟨hnil, herr⟩ | ⟨hne, q, hq, hok⟩
    · rw [herr', herr]
    · exact absurd (List.eq_nil_iff_forall_not_mem.mpr fun a ha => by
        simpa [hnil'] using (hsame a).mpr ha) hne
    · exact absurd (List.eq_nil_iff_forall_not_mem.mpr fun a ha => by
        simpa [hnil] using (hsame a).mp ha) hne'
    · rw [spot_eq_of_mem_iff hsame] at hq'
      rw [hok', hok, hq'.unique_spot hq]
  · rcases lookup_build v agents hash h with ⟨-, herr⟩ | ⟨-, q, hq, hok⟩
    · rw [herr] at ha
      cases ha
    · rw [hok] at ha
      cases ha
      exact hq.1.1

/-- Two agents listed in either order own the same hashes. -/
theorem lookup_eq_successor_reversed :
    (∀ a, a ∈ [Address.loopback 3, Address.loopback 0] ↔
      a ∈ [Address.loopback 0, Address.loopback 3]) ∧
    ((Ring.empty 4).build [Address.loopback 3, Address.loopback 0]).lookup 5 =
      ((Ring.empty 4).build [Address.loopback 0, Address.loopback 3]).lookup 5 :=
  have hsame : ∀ a, a ∈ [Address.loopback 3, Address.loopback 0] ↔
      a ∈ [Address.loopback 0, Address.loopback 3] := fun a => by simp [or_comm]
  ⟨hsame, (lookup_eq_successor placeOf [Address.loopback 0, Address.loopback 3] 4 5).2.2.1 _
    hsame⟩

/-- Agents joining a mesh only take hashes. When the agents listed first are a nonempty part of
those listed later, each hash has an owner in the later ring, and it is the hash's owner in the
first ring or one of the agents that joined: no hash moves between two agents listed both times.
The first ring's positions all stand in the later ring, so its owner, when it was listed first,
owns the hash among the first ring's positions too. -/
theorem joining_agents_only_take (hash : UInt64 → UInt64) (v : UInt16) {L L' : List Address}
    (hne : L ≠ []) (hsub : ∀ a ∈ L, a ∈ L') (h : UInt64) :
    ∃ a, ((Ring.empty v).build L' hash).lookup h = .ok a ∧
      (((Ring.empty v).build L hash).lookup h = .ok a ∨ (a ∈ L' ∧ a ∉ L)) := by
  have hspot : ∀ p, Spot hash (max v 1) L p → Spot hash (max v 1) L' p :=
    fun p ⟨ha, hrest⟩ => ⟨hsub _ ha, hrest⟩
  obtain ⟨hne', q', hq', hok'⟩ := (lookup_build v L' hash h).resolve_left
    fun ⟨hnil, _⟩ => hne (List.eq_nil_iff_forall_not_mem.mpr fun a ha => by
      simpa [hnil] using hsub a ha)
  obtain ⟨-, q, hq, hok⟩ := (lookup_build v L hash h).resolve_left fun ⟨hnil, _⟩ => hne hnil
  refine ⟨q'.agent, hok', ?_⟩
  by_cases hold : q'.agent ∈ L
  · -- an agent listed first keeps the hashes it owned
    have hq'L : Owns (Spot hash (max v 1) L) h q' :=
      hq'.of_subset hspot ⟨hold, hq'.1.2⟩
    rw [hq'L.unique_spot hq]
    exact .inl hok
  · exact .inr ⟨hq'.1.1, hold⟩

/-- An agent joining a mesh of one. -/
theorem joining_agents_only_take_pair :
    [Address.loopback 0] ≠ [] ∧
    (∀ a ∈ [Address.loopback 0], a ∈ [Address.loopback 0, Address.loopback 3]) ∧
    ∃ a, ((Ring.empty 4).build [Address.loopback 0, Address.loopback 3]).lookup 5 = .ok a ∧
      (((Ring.empty 4).build [Address.loopback 0]).lookup 5 = .ok a ∨
        (a ∈ [Address.loopback 0, Address.loopback 3] ∧ a ∉ [Address.loopback 0])) :=
  have hne : [Address.loopback 0] ≠ [] := nofun
  have hsub : ∀ a ∈ [Address.loopback 0], a ∈ [Address.loopback 0, Address.loopback 3] := by
    decide
  ⟨hne, hsub, joining_agents_only_take placeOf 4 hne hsub 5⟩

end Ring

end ShardStore
