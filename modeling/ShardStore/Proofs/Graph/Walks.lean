import Mathlib.Data.Finset.Card
import Mathlib.Order.Bounds.Defs
/-!
Walks along a relation, and the least value walks offer at their end.

A walk counts its steps. Cutting out the stretch between two visits of one stop shortens it, so
inside a finite set of stops every walk can be traded for one with fewer steps than the set has
stops.

A walk of `L` steps from `u` offers at its end the seed of `u` plus `L`, capped at a top value.
Relaxation computes the least offer round by round: a value that is the least offer of the walks
of at most `i` steps becomes, after one more round of taking the least of itself and one more
than each in-neighbour's value, the least offer of the walks of at most `i + 1` steps. Values no
edge can lower are the least offers of all walks, and so, once `i + 1` reaches the number of
stops, are the values of round `i`.
-/

namespace ShardStore

/-- A walk of `n` steps from `a` to `b` along `r`, grown one step at a time at its end. -/
inductive Walk {α : Type} (r : α → α → Prop) : α → α → Nat → Prop
  | nil (a : α) : Walk r a a 0
  | snoc {a b c : α} {n : Nat} : Walk r a b n → r b c → Walk r a c (n + 1)

namespace Walk

variable {α : Type} {r : α → α → Prop}

theorem eq_of_zero {a b : α} (h : Walk r a b 0) : a = b := by
  cases h
  rfl

/-- The stops of a walk, as a sequence. -/
theorem exists_stops {a b : α} {n : Nat} (h : Walk r a b n) :
    ∃ p : Nat → α, p 0 = a ∧ p n = b ∧ ∀ i < n, r (p i) (p (i + 1)) := by
  induction h with
  | nil => exact ⟨fun _ => a, rfl, rfl, fun _ h => absurd h (Nat.not_lt_zero _)⟩
  | @snoc b c n _ hbc ih =>
    obtain ⟨p, h0, hn, hp⟩ := ih
    refine ⟨fun i => if i ≤ n then p i else c, by simp [h0], by simp, fun i hi => ?_⟩
    by_cases hin : i + 1 ≤ n
    · simpa [hin, Nat.le_of_succ_le hin] using hp i hin
    · obtain rfl : i = n := by omega
      simpa [hn, Nat.not_succ_le_self] using hbc

/-- A sequence whose consecutive stops are related is a walk. -/
theorem of_stops (p : Nat → α) : ∀ n, (∀ i < n, r (p i) (p (i + 1))) → Walk r (p 0) (p n) n
  | 0, _ => .nil _
  | n + 1, h => .snoc (of_stops p n fun i hi => h i (by omega)) (h n (by omega))

/-- Cutting out the stretch between two visits `i < j` of one stop. -/
theorem cut {p : Nat → α} {n i j : Nat} (hp : ∀ k < n, r (p k) (p (k + 1))) (hij : i < j)
    (hj : j ≤ n) (heq : p i = p j) : Walk r (p 0) (p n) (n - (j - i)) := by
  -- the cut walk follows `p` up to `i` and the rest of `p` after `j`
  let q : Nat → α := fun k => if k ≤ i then p k else p (k + (j - i))
  have hq : ∀ k < n - (j - i), r (q k) (q (k + 1)) := by
    intro k hk
    rcases Nat.lt_trichotomy k i with hki | rfl | hki
    · simpa [q, Nat.le_of_lt hki, Nat.succ_le_of_lt hki] using hp k (by omega)
    · have hs : k + 1 + (j - k) = j + 1 := by omega
      simpa [q, heq, hs, show ¬ k + 1 ≤ k by omega] using hp j (by omega)
    · have hs : k + 1 + (j - i) = k + (j - i) + 1 := by omega
      simpa [q, Nat.not_le_of_lt hki, show ¬ k + 1 ≤ i by omega, hs] using
        hp (k + (j - i)) (by omega)
  have hend : q (n - (j - i)) = p n := by
    by_cases h : n - (j - i) ≤ i
    · obtain rfl : n = j := by omega
      simp [q, show n - (n - i) = i by omega, heq]
    · simp [q, h, show n - (j - i) + (j - i) = n by omega]
  simpa [q, hend] using of_stops q _ hq

/-- Inside a finite set holding both ends of every edge, a walk to a stop of the set can be
traded for one of no more steps and of fewer steps than the set has stops. -/
theorem exists_short (V : Finset α) (hV : ∀ a b, r a b → a ∈ V ∧ b ∈ V) {a b : α} (hb : b ∈ V) :
    ∀ {n : Nat}, Walk r a b n → ∃ m ≤ n, m < V.card ∧ Walk r a b m := by
  intro n
  induction n using Nat.strong_induction_on with
  | _ n ih =>
    intro h
    by_cases hn : n < V.card
    · exact ⟨n, le_rfl, hn, h⟩
    -- `n + 1` stops in fewer places: two of them coincide
    obtain ⟨p, h0, hpn, hp⟩ := h.exists_stops
    have hmaps : ∀ k ∈ Finset.range (n + 1), p k ∈ V := by
      intro k hk
      rcases Nat.lt_or_ge k n with hk' | hk'
      · exact (hV _ _ (hp k hk')).1
      · obtain rfl : k = n := by rw [Finset.mem_range] at hk; omega
        exact hpn ▸ hb
    have hcard : V.card < (Finset.range (n + 1)).card := by
      rw [Finset.card_range]
      omega
    obtain ⟨x, hx, y, hy, hxy, hpxy⟩ := Finset.exists_ne_map_eq_of_card_lt_of_maps_to hcard hmaps
    rw [Finset.mem_range] at hx hy
    obtain ⟨i, j, hij, hj, heq⟩ : ∃ i j, i < j ∧ j ≤ n ∧ p i = p j := by
      rcases Nat.lt_or_gt_of_ne hxy with hlt | hlt
      · exact ⟨x, y, hlt, by omega, hpxy⟩
      · exact ⟨y, x, hlt, by omega, hpxy.symm⟩
    have hw := cut hp hij hj heq
    rw [h0, hpn] at hw
    obtain ⟨m, hm, hmV, hwm⟩ := ih _ (by omega) hw
    exact ⟨m, by omega, hmV, hwm⟩

end Walk

section Relaxation

variable {α : Type} {r : α → α → Prop} {top : Nat} {seed : α → Nat}

variable (r top seed) in
/-- `x` is the least value that walks of at most `i` steps offer at `v`: none offers less, and
one offers exactly `x`. -/
structure LeastWithin (i : Nat) (v : α) (x : Nat) : Prop where
  le : ∀ u L, Walk r u v L → L ≤ i → x ≤ min top (seed u + L)
  attained : ∃ u L, Walk r u v L ∧ L ≤ i ∧ x = min top (seed u + L)

variable (r top seed) in
/-- What walks offer at `v`: for each walk of `L` steps from `u`, the seed of `u` plus `L`, capped
at `top`. -/
def Walk.offers (v : α) : Set Nat := {x | ∃ u L, Walk r u v L ∧ x = min top (seed u + L)}

namespace LeastWithin

/-- Before any round, a vertex holds its own seed. -/
theorem seed_self (hs : ∀ u, seed u ≤ top) (v : α) : LeastWithin r top seed 0 v (seed v) := by
  refine ⟨fun u L hw hL => ?_, ⟨v, 0, .nil v, le_rfl, by simp [hs v]⟩⟩
  obtain rfl : L = 0 := by omega
  obtain rfl := hw.eq_of_zero
  simp [hs u]

theorem le_top {i : Nat} {v : α} {x : Nat} (h : LeastWithin r top seed i v x) : x ≤ top := by
  obtain ⟨u, L, -, -, rfl⟩ := h.attained
  exact Nat.min_le_left _ _

/-- One round of relaxation: the least of a vertex's value and a word `g` that is at most one
more than each in-neighbour's value (capped), and is either the top or exactly that for one
in-neighbour. -/
theorem step {i : Nat} {X : α → Nat} (hX : ∀ v, LeastWithin r top seed i v (X v)) {v : α} {g : Nat}
    (hle : ∀ w, r w v → g ≤ min top (X w + 1))
    (hg : g = top ∨ ∃ w, r w v ∧ g = min top (X w + 1)) :
    LeastWithin r top seed (i + 1) v (min (X v) g) := by
  constructor
  · intro u L hw hL
    rcases Nat.lt_or_ge L (i + 1) with hL' | hL'
    · exact (Nat.min_le_left _ _).trans ((hX v).le u L hw (by omega))
    · -- a walk of `i + 1` steps ends with an edge from a vertex reached in `i`
      obtain rfl : L = i + 1 := by omega
      cases hw with
      | @snoc w _ _ hw' hwv =>
        have h1 := hle w hwv
        have h2 := (hX w).le u i hw' le_rfl
        omega
  · by_cases hxg : X v ≤ g
    · obtain ⟨u, L, hw, hL, hx⟩ := (hX v).attained
      exact ⟨u, L, hw, by omega, by rw [Nat.min_eq_left hxg, hx]⟩
    · have htop := (hX v).le_top
      obtain ⟨w, hwv, hgw⟩ : ∃ w, r w v ∧ g = min top (X w + 1) := by
        rcases hg with hg | hg
        · omega
        · exact hg
      obtain ⟨u, L, hw, hL, hx⟩ := (hX w).attained
      refine ⟨u, L + 1, hw.snoc hwv, by omega, ?_⟩
      rw [Nat.min_eq_right (by omega), hgw, hx]
      omega

/-- Values that no edge can lower, each the least offer within some rounds, are the least
offers of all walks. -/
theorem isLeast_of_closed {i : Nat} {X : α → Nat} (hX : ∀ v, LeastWithin r top seed i v (X v))
    (hclosed : ∀ w v, r w v → X v ≤ min top (X w + 1)) (v : α) :
    IsLeast (Walk.offers r top seed v) (X v) := by
  refine ⟨?_, ?_⟩
  · obtain ⟨u, L, hw, -, hx⟩ := (hX v).attained
    exact ⟨u, L, hw, hx⟩
  · rintro _ ⟨u, L, hw, rfl⟩
    -- along the walk, each step raises the bound by at most one
    induction hw with
    | nil => exact (hX u).le u 0 (.nil u) (Nat.zero_le _)
    | @snoc b c n _ hbc ih =>
      have h := hclosed b c hbc
      omega

/-- Once `i + 1` reaches the number of stops, the walks of at most `i` steps offer all that
walks offer. -/
theorem isLeast (V : Finset α) (hV : ∀ a b, r a b → a ∈ V ∧ b ∈ V) {i : Nat} (hi : V.card ≤ i + 1)
    {v : α} (hv : v ∈ V) {x : Nat} (h : LeastWithin r top seed i v x) :
    IsLeast (Walk.offers r top seed v) x := by
  refine ⟨?_, ?_⟩
  · obtain ⟨u, L, hw, -, hx⟩ := h.attained
    exact ⟨u, L, hw, hx⟩
  · rintro _ ⟨u, L, hw, rfl⟩
    obtain ⟨m, hmL, hmV, hwm⟩ := hw.exists_short V hV hv
    have h := h.le u m hwm (by omega)
    omega

end LeastWithin

end Relaxation

end ShardStore
