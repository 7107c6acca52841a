import Mathlib
import ShardStore.Mesh.Barrier
/-!
How the synchronizer sums the reports of a barrier.

At a barrier every agent reports to the synchronizer how many mutations it sent to each agent,
and whether it wants another round. The tally keeps the set of agents that have reported and, per
address, the counts reported sent there, each an unsigned 64-bit word. Once as many agents have
reported as the list it is given holds, it answers every agent of that list, in the list's order,
with its count, and starts over; the flag of the reports outlives the barrier until it is taken.

Each report a barrier takes keeps three things (`Collects`): the reported set is exactly the
senders so far, ascending; each address's count is what the reports so far sent there, modulo
`2 ^ 64`; and the flag is the OR of theirs. When the agents of a list without repeats each report
once, the set grows by one with each report, so only the last answers, and it answers every agent
with what was sent to it; those answers add up to what was sent to any agent of the list, modulo
`2 ^ 64`. Apart from the flag the tally is then empty.
-/

namespace ShardStore

namespace Tally

/-- One agent's report at a barrier: its address, whether it wants another round, and how many
mutations it sent to each address. -/
structure Report where
  sender : Address
  again : Bool
  sent : List (Address × Nat)
deriving DecidableEq, Repr

/-- A call on the tally. -/
inductive Call where
  /-- An agent's report, with the agents the barrier waits for. -/
  | report (r : Report) (agents : List Address)
  /-- An agent arrived; the barrier ends once `n` have. -/
  | arrive (sender : Address) (n : Nat)
  /-- The flag of the reports is taken. -/
  | takeAgain

/-- The tally after a call. -/
def Call.apply : Call → Tally → Tally
  | .report r agents, t => (t.report r.sender r.again r.sent agents).2
  | .arrive a n, t => (t.arrive a n).2
  | .takeAgain, t => t.takeAgain.2

/-- The tally after calls made in turn. -/
def replay (t : Tally) (cs : List Call) : Tally := cs.foldl (fun t c => c.apply t) t

/-- How a call changes the flag of the reports. -/
def Call.onAgain : Call → Bool → Bool
  | .report r _, g => g || r.again
  | .arrive .., g => g
  | .takeAgain, _ => false

/-- Whether any report among calls asked for another round since the flag was last taken. -/
def againSinceTake (cs : List Call) : Bool := cs.foldl (fun g c => c.onAgain g) false

/-- Reports made in turn with one agent list: what each answers, and the tally after them. -/
def reportAll (agents : List Address) : Tally → List Report →
    List (Option (List (Address × Nat))) × Tally
  | t, [] => ([], t)
  | t, r :: rs =>
    ((t.report r.sender r.again r.sent agents).1 ::
        (reportAll agents (t.report r.sender r.again r.sent agents).2 rs).1,
      (reportAll agents (t.report r.sender r.again r.sent agents).2 rs).2)

/-- The mutations reports say were sent to an address, in all. -/
def sentTo (rs : List Report) (a : Address) : Nat :=
  (((rs.flatMap Report.sent).filter (·.1 = a)).map Prod.snd).sum

/-- The count per-address counts give an address: its entry's, or zero. -/
def countOf (l : List (Address × Nat)) (a : Address) : Nat := ((l.find? (·.1 = a)).map (·.2)).getD 0

/-! ### Counts per address -/

/-- Per-address counts as the tally keeps them: ascending by address, each a 64-bit word. -/
structure Counts (l : List (Address × Nat)) : Prop where
  ascending : l.Pairwise fun p q => Address.compare p.1 q.1 = .lt
  words : ∀ p ∈ l, p.2 < Nat.pow 2 64

theorem counts_nil : Counts [] := ⟨List.Pairwise.nil, fun _ h => absurd h List.not_mem_nil⟩

@[simp] theorem countOf_nil (a : Address) : countOf [] a = 0 := rfl

theorem countOf_cons (b a : Address) (m : Nat) (l : List (Address × Nat)) :
    countOf ((b, m) :: l) a = if b = a then m else countOf l a := by
  by_cases h : b = a <;> simp [countOf, h]

theorem countOf_of_forall_ne {l : List (Address × Nat)} {a : Address} (h : ∀ p ∈ l, p.1 ≠ a) :
    countOf l a = 0 := by
  induction l with
  | nil => rfl
  | cons p l ih =>
    rw [countOf_cons, if_neg (h p List.mem_cons_self)]
    exact ih fun q hq => h q (List.mem_cons_of_mem _ hq)

theorem Counts.countOf_lt {l : List (Address × Nat)} (h : Counts l) (a : Address) :
    countOf l a < Nat.pow 2 64 := by
  unfold countOf
  cases hf : l.find? (·.1 = a) with
  | none => simp
  | some p => simpa using h.words p (List.mem_of_find?_eq_some hf)

theorem Counts.tail {p : Address × Nat} {l : List (Address × Nat)} (h : Counts (p :: l)) :
    Counts l :=
  ⟨h.ascending.of_cons, fun q hq => h.words q (List.mem_cons_of_mem _ hq)⟩

theorem fst_mem_bump {d : Address} {n : Nat} :
    ∀ {l : List (Address × Nat)}, ∀ p ∈ Address.bump d n l, p.1 = d ∨ ∃ q ∈ l, q.1 = p.1
  | [], p, hp => by simp [Address.bump] at hp; exact .inl (by rw [hp])
  | (b, m) :: rest, p, hp => by
    unfold Address.bump at hp
    split at hp
    · rcases List.mem_cons.mp hp with rfl | hp
      · exact .inl rfl
      · exact .inr ⟨p, hp, rfl⟩
    · rcases List.mem_cons.mp hp with rfl | hp
      · exact .inr ⟨(b, m), List.mem_cons_self, rfl⟩
      · exact .inr ⟨p, List.mem_cons_of_mem _ hp, rfl⟩
    · rcases List.mem_cons.mp hp with rfl | hp
      · exact .inr ⟨(b, m), List.mem_cons_self, rfl⟩
      · rcases fst_mem_bump p hp with h | ⟨q, hq, hqp⟩
        · exact .inl h
        · exact .inr ⟨q, List.mem_cons_of_mem _ hq, hqp⟩

/-- Adding to a count keeps the counts ascending words. -/
theorem Counts.bump {l : List (Address × Nat)} (h : Counts l) (d : Address) (n : Nat) :
    Counts (Address.bump d n l) := by
  induction l with
  | nil => exact ⟨List.pairwise_singleton _ _, by simp [Address.bump, Nat.mod_lt]⟩
  | cons p rest ih =>
    obtain ⟨b, m⟩ := p
    have hrest := h.tail
    have hb : ∀ q ∈ rest, Address.compare b q.1 = .lt := fun q hq =>
      List.rel_of_pairwise_cons h.ascending hq
    unfold Address.bump
    split
    · rename_i hlt
      refine ⟨List.Pairwise.cons (fun q hq => ?_) h.ascending, fun q hq => ?_⟩
      · rcases List.mem_cons.mp hq with rfl | hq
        · exact hlt
        · exact Address.compare_lt_trans hlt (hb q hq)
      · rcases List.mem_cons.mp hq with rfl | hq
        · exact Nat.mod_lt _ (by decide)
        · exact h.words q hq
    · refine ⟨List.Pairwise.cons hb hrest.ascending, fun q hq => ?_⟩
      rcases List.mem_cons.mp hq with rfl | hq
      · exact Nat.mod_lt _ (by decide)
      · exact hrest.words q hq
    · rename_i hgt
      have ih' := ih hrest
      refine ⟨List.Pairwise.cons (fun q hq => ?_) ih'.ascending, fun q hq => ?_⟩
      · rcases fst_mem_bump q hq with hq | ⟨q', hq', hqq⟩
        · rw [hq]; exact Address.compare_eq_gt_iff.mp hgt
        · rw [← hqq]; exact hb q' hq'
      · rcases List.mem_cons.mp hq with rfl | hq
        · exact h.words _ List.mem_cons_self
        · exact ih'.words q hq

/-- Adding `n` to the count of `d` adds it, modulo `2 ^ 64`, to that address only. -/
theorem Counts.countOf_bump {l : List (Address × Nat)} (h : Counts l) (d a : Address) (n : Nat) :
    countOf (Address.bump d n l) a = (countOf l a + if d = a then n else 0) % Nat.pow 2 64 := by
  induction l with
  | nil =>
    by_cases hd : d = a
    · simp [Address.bump, countOf_cons, hd]
    · simp [Address.bump, countOf_cons, hd]
  | cons p rest ih =>
    obtain ⟨b, m⟩ := p
    have hb : ∀ q ∈ rest, Address.compare b q.1 = .lt := fun q hq =>
      List.rel_of_pairwise_cons h.ascending hq
    have hword : countOf ((b, m) :: rest) a < Nat.pow 2 64 := h.countOf_lt a
    unfold Address.bump
    split
    · rename_i hlt
      rw [countOf_cons]
      by_cases hd : d = a
      · -- every address listed is past `d`, so `d` had no count
        have hzero : countOf ((b, m) :: rest) a = 0 := by
          refine countOf_of_forall_ne fun q hq hqa => ?_
          subst hd
          rcases List.mem_cons.mp hq with rfl | hq
          · exact Address.compare_self_ne_lt _ (hqa ▸ hlt)
          · exact Address.compare_self_ne_lt _ (hqa ▸ Address.compare_lt_trans hlt (hb q hq))
        simp [hd, hzero]
      · simp [hd, Nat.mod_eq_of_lt hword]
    · rename_i heq
      obtain rfl := Address.eq_of_compare_eq heq
      rw [countOf_cons, countOf_cons]
      by_cases hd : d = a
      · simp [hd]
      · simp only [hd, if_false, Nat.add_zero]
        exact (Nat.mod_eq_of_lt (h.tail.countOf_lt a)).symm
    · rename_i hgt
      rw [countOf_cons, countOf_cons, ih h.tail]
      by_cases hba : b = a
      · have hda : d ≠ a := fun hda => by
          rw [hda, hba, Address.compare_eq_gt_iff] at hgt
          exact Address.compare_self_ne_lt _ hgt
        have hm : m < Nat.pow 2 64 := h.words (b, m) List.mem_cons_self
        simp only [hba, if_true, hda, if_false, Nat.add_zero]
        exact (Nat.mod_eq_of_lt hm).symm
      · simp [hba]

/-- The counts after adding each count of a report, in order. -/
theorem Counts.foldl_bump {l : List (Address × Nat)} (h : Counts l) (sent : List (Address × Nat))
    (a : Address) :
    Counts (sent.foldl (fun acc p => Address.bump p.1 p.2 acc) l) ∧
      countOf (sent.foldl (fun acc p => Address.bump p.1 p.2 acc) l) a =
        (countOf l a + ((sent.filter (·.1 = a)).map Prod.snd).sum) % Nat.pow 2 64 := by
  induction sent generalizing l with
  | nil => exact ⟨h, (Nat.mod_eq_of_lt (by simpa using h.countOf_lt a)).symm⟩
  | cons p sent ih =>
    obtain ⟨hc, hcount⟩ := ih (h.bump p.1 p.2)
    refine ⟨hc, ?_⟩
    rw [List.foldl_cons, hcount, h.countOf_bump, Nat.mod_add_mod]
    by_cases hp : p.1 = a
    · simp [hp, Nat.add_assoc]
    · simp [hp]

/-! ### Reports -/

/-- A report tallied: its sender joins the reported set, its counts are added, its flag is taken
in; once the set is as large as the agent list, every agent is answered and the set, the counts
and the arrivals start over. -/
theorem report_eq (t : Tally) (s : Address) (g : Bool) (sent : List (Address × Nat))
    (agents : List Address) :
    t.report s g sent agents =
      if (Address.insertSorted s t.reported).length < agents.length then
        (none, ⟨Address.insertSorted s t.reported,
          sent.foldl (fun acc p => Address.bump p.1 p.2 acc) t.expected, t.arrived, t.again || g⟩)
      else
        (some (agents.map fun a =>
          (a, countOf (sent.foldl (fun acc p => Address.bump p.1 p.2 acc) t.expected) a)),
          ⟨[], [], [], t.again || g⟩) := rfl

@[simp] theorem sentTo_nil (a : Address) : sentTo [] a = 0 := rfl

theorem sentTo_snoc (rs : List Report) (r : Report) (a : Address) :
    sentTo (rs ++ [r]) a = sentTo rs a + ((r.sent.filter (·.1 = a)).map Prod.snd).sum := by
  simp [sentTo, List.flatMap_append]

/-- The tally partway through a barrier, holding the reports `done` on top of a tally that held
none and whose flag was `g`. -/
structure Collects (t : Tally) (done : List Report) (g : Bool) : Prop where
  ascending : t.reported.Pairwise (Address.compare · · = .lt)
  reported : ∀ a, a ∈ t.reported ↔ a ∈ done.map Report.sender
  counts : Counts t.expected
  expected : ∀ a, countOf t.expected a = sentTo done a % Nat.pow 2 64
  again : t.again = (g || done.any Report.again)

theorem collects_start {t : Tally} (hr : t.reported = []) (he : t.expected = []) :
    Collects t [] t.again where
  ascending := hr ▸ List.Pairwise.nil
  reported := by simp [hr]
  counts := he ▸ counts_nil
  expected := by simp [he]
  again := by simp

theorem nodup_of_ascending {l : List Address} (h : l.Pairwise (Address.compare · · = .lt)) :
    l.Nodup :=
  h.imp fun {x y} (hlt : Address.compare x y = .lt) (heq : x = y) => by
    subst heq
    exact Address.compare_self_ne_lt x hlt

section Collecting

variable {t : Tally} {done : List Report} {g : Bool} (h : Collects t done g) (r : Report)
include h

/-- What a report adds before the tally checks whether every agent has reported. -/
theorem Collects.add :
    Collects ⟨Address.insertSorted r.sender t.reported,
      r.sent.foldl (fun acc p => Address.bump p.1 p.2 acc) t.expected, t.arrived,
      t.again || r.again⟩ (done ++ [r]) g where
  ascending := Address.pairwise_insertSorted h.ascending
  reported a := by simp [Address.mem_insertSorted, h.reported, or_comm]
  counts := (h.counts.foldl_bump r.sent r.sender).1
  expected a := by
    rw [(h.counts.foldl_bump r.sent a).2, h.expected, sentTo_snoc, Nat.mod_add_mod]
  again := by simp [h.again, Bool.or_assoc]

/-- A report from an agent that has not reported grows the reported set by one. -/
theorem Collects.length_add (hnd : (done.map Report.sender).Nodup)
    (hr : r.sender ∉ done.map Report.sender) :
    (Address.insertSorted r.sender t.reported).length = done.length + 1 := by
  have hperm : (Address.insertSorted r.sender t.reported).Perm ((done ++ [r]).map Report.sender) := by
    refine (List.perm_ext_iff_of_nodup (nodup_of_ascending (h.add r).ascending) ?_).mpr
      (h.add r).reported
    rw [List.map_append, List.map_singleton]
    exact hnd.append (List.nodup_singleton _) (List.disjoint_singleton.mpr hr)
  simpa using hperm.length_eq

end Collecting

/-- When the agents of a list without repeats each report once, every report but the last
answers nothing, and the last answers every agent, in the list's order, with the counts sent to
it modulo `2 ^ 64`; the tally is then empty but for the flag. -/
theorem reportAll_eq {A : List Address} :
    ∀ (rs done : List Report) (t : Tally) (g : Bool), Collects t done g → rs ≠ [] →
      ((done ++ rs).map Report.sender).Perm A → A.Nodup →
      reportAll A t rs = (List.replicate (rs.length - 1) none ++
          [some (A.map fun a => (a, sentTo (done ++ rs) a % Nat.pow 2 64))],
        ⟨[], [], [], g || (done ++ rs).any Report.again⟩)
  | [], _, _, _, _, hne, _, _ => absurd rfl hne
  | r :: rs, done, t, g, h, _, hperm, hA => by
    have hnd : ((done ++ r :: rs).map Report.sender).Nodup := hperm.nodup_iff.mpr hA
    have hr : r.sender ∉ done.map Report.sender := by
      simp only [List.map_append, List.map_cons, List.nodup_append, List.nodup_cons] at hnd
      exact fun hm => hnd.2.2 _ hm _ List.mem_cons_self rfl
    have hlen := h.length_add r (hnd.sublist (by simp)) hr
    have hA_len : A.length = done.length + 1 + rs.length := by
      rw [← hperm.length_eq]; simp; omega
    have hadd := h.add r
    unfold reportAll
    rw [report_eq, hlen]
    cases rs with
    | nil =>
      -- the last report: every agent is answered
      have hcount : ∀ a, countOf (r.sent.foldl (fun acc p => Address.bump p.1 p.2 acc) t.expected) a =
          sentTo (done ++ [r]) a % Nat.pow 2 64 := hadd.expected
      simp only [List.length_nil, Nat.add_zero] at hA_len
      simp [hA_len, hcount, reportAll, h.again, Bool.or_assoc]
    | cons r' rs' =>
      -- not every agent has reported yet: nothing is answered
      have hlt : done.length + 1 < A.length := by simp [hA_len]
      rw [if_pos hlt]
      have ih := reportAll_eq (r' :: rs') (done ++ [r]) _ g hadd (by simp) (by simpa using hperm) hA
      simp only [List.append_assoc, List.singleton_append] at ih
      simp [ih, List.replicate_succ]

/-! ### The flag and the start of a barrier -/

theorem Call.again_apply (c : Call) (t : Tally) : (c.apply t).again = c.onAgain t.again := by
  cases c with
  | report r agents =>
    show (t.report r.sender r.again r.sent agents).2.again = _
    rw [report_eq]
    split <;> rfl
  | arrive a n =>
    show (t.arrive a n).2.again = t.again
    unfold Tally.arrive
    dsimp only
    split <;> rfl
  | takeAgain => rfl

/-- The flag of the tally is whether a report asked for another round since it was last taken. -/
theorem again_replay (cs : List Call) : (replay empty cs).again = againSinceTake cs := by
  suffices h : ∀ t : Tally, (replay t cs).again = cs.foldl (fun g c => c.onAgain g) t.again from
    h empty
  induction cs with
  | nil => intro t; rfl
  | cons c cs ih =>
    intro t
    simp only [replay, List.foldl_cons] at ih ⊢
    rw [ih, Call.again_apply]

theorem againSinceTake_reports (cs : List Call) (rs : List Report) (A : List Address) :
    againSinceTake (cs ++ rs.map (Call.report · A)) = (againSinceTake cs || rs.any Report.again) := by
  unfold againSinceTake
  rw [List.foldl_append]
  generalize cs.foldl (fun g c => c.onAgain g) false = g
  induction rs generalizing g with
  | nil => simp
  | cons r rs ih =>
    rw [List.map_cons, List.foldl_cons,
      show (Call.report r A).onAgain g = (g || r.again) from rfl, ih, List.any_cons, Bool.or_assoc]

/-- A tally holding no report holds no counts either. -/
def Settled (t : Tally) : Prop := t.reported = [] → t.expected = []

theorem Call.settled_apply (c : Call) {t : Tally} (h : t.Settled) : (c.apply t).Settled := by
  cases c with
  | report r agents =>
    show (t.report r.sender r.again r.sent agents).2.reported = [] →
      (t.report r.sender r.again r.sent agents).2.expected = []
    rw [report_eq]
    split
    · -- the sender has just joined the reported set
      intro hr
      have hmem : r.sender ∈ Address.insertSorted r.sender t.reported :=
        Address.mem_insertSorted.mpr (.inl rfl)
      rw [show Address.insertSorted r.sender t.reported = [] from hr] at hmem
      exact absurd hmem List.not_mem_nil
    · intro _; rfl
  | arrive a n =>
    show (t.arrive a n).2.reported = [] → (t.arrive a n).2.expected = []
    unfold Tally.arrive
    dsimp only
    split <;> exact h
  | takeAgain => exact h

theorem settled_replay (cs : List Call) : (replay empty cs).Settled := by
  suffices hs : ∀ t : Tally, t.Settled → (replay t cs).Settled from hs empty fun _ => rfl
  induction cs with
  | nil => intro t h; exact h
  | cons c cs ih => intro t h; exact ih _ (c.settled_apply h)

/-! ### Totals -/

theorem sum_ite_eq_of_nodup {A : List Address} (hA : A.Nodup) (b : Address) (x : Nat) :
    (A.map fun a => if b = a then x else 0).sum = if b ∈ A then x else 0 := by
  induction A with
  | nil => simp
  | cons c A ih =>
    obtain ⟨hc, hA'⟩ := List.nodup_cons.mp hA
    rw [List.map_cons, List.sum_cons, ih hA']
    by_cases hbc : b = c
    · subst hbc
      simp [hc]
    · simp [hbc]

/-- Over addresses without repeats, the counts sent to each add up to the counts sent to any. -/
theorem sum_sent_of_nodup {A : List Address} (hA : A.Nodup) (S : List (Address × Nat)) :
    (A.map fun a => ((S.filter (·.1 = a)).map Prod.snd).sum).sum =
      ((S.filter (·.1 ∈ A)).map Prod.snd).sum := by
  induction S with
  | nil => simp
  | cons p S ih =>
    have hsplit : ∀ a, ((((p :: S).filter (·.1 = a)).map Prod.snd).sum) =
        (if p.1 = a then p.2 else 0) + ((S.filter (·.1 = a)).map Prod.snd).sum := by
      intro a
      by_cases hp : p.1 = a <;> simp [hp]
    simp only [hsplit, List.sum_map_add, sum_ite_eq_of_nodup hA, ih]
    by_cases hp : p.1 ∈ A <;> simp [hp]

/-! ### A barrier's reports -/

/-- After any calls on a new tally that leave no report pending, let the agents of a non-empty
list `A` without repeats each report once, in any order, sending to any addresses. Every report
but the last answers nothing; the last answers every agent of `A`, in the order of `A`, with the
counts reported sent to it, summed modulo `2 ^ 64`, and these answers add up, modulo `2 ^ 64`, to
the counts reported sent to any agent of `A`. The tally is then empty but for the flag, which is
whether a report asked for another round since the flag was last taken; taking it answers that and
leaves the tally as new. -/
theorem tally_distributes_reports (h : List Call) (A : List Address) (rs : List Report)
    (hA : A.Nodup) (hne : A ≠ []) (hperm : (rs.map Report.sender).Perm A)
    (hfree : (replay empty h).reported = []) :
    (reportAll A (replay empty h) rs).1 = List.replicate (A.length - 1) none ++
        [some (A.map fun a => (a, sentTo rs a % Nat.pow 2 64))] ∧
      ((A.map fun a => sentTo rs a % Nat.pow 2 64).sum % Nat.pow 2 64 =
        (((rs.flatMap Report.sent).filter (·.1 ∈ A)).map Prod.snd).sum % Nat.pow 2 64) ∧
      (reportAll A (replay empty h) rs).2 =
        ⟨[], [], [], againSinceTake (h ++ rs.map (Call.report · A))⟩ ∧
      (reportAll A (replay empty h) rs).2.takeAgain =
        (againSinceTake (h ++ rs.map (Call.report · A)), empty) := by
  have hstart := collects_start hfree (settled_replay h hfree)
  have hrs : rs ≠ [] := fun hrs => hne (by simpa [hrs] using hperm.symm)
  have hrun := reportAll_eq rs [] _ _ hstart hrs (by simpa using hperm) hA
  have hlen : rs.length = A.length := by simpa using hperm.length_eq
  have hflag : ((replay empty h).again || rs.any Report.again) =
      againSinceTake (h ++ rs.map (Call.report · A)) := by
    rw [again_replay, againSinceTake_reports]
  simp only [List.nil_append] at hrun
  refine ⟨by rw [hrun, hlen], ?_, by rw [hrun, hflag], by rw [hrun, hflag]; rfl⟩
  -- the answers are the sums, each taken modulo `2 ^ 64`
  calc (A.map fun a => sentTo rs a % Nat.pow 2 64).sum % Nat.pow 2 64
      = (A.map (sentTo rs)).sum % Nat.pow 2 64 := by
        rw [List.sum_nat_mod (A.map (sentTo rs)), List.map_map]
        rfl
    _ = _ := by
        unfold sentTo
        rw [sum_sent_of_nodup hA]

/-- The repository's own example: three agents, the second asking for another round. -/
theorem tally_distributes_reports_three_agents :
    let A := [Address.loopback 0, Address.loopback 3, Address.loopback 6]
    let rs : List Report := [⟨Address.loopback 0, false, [(Address.loopback 3, 2), (Address.loopback 6, 1)]⟩,
      ⟨Address.loopback 3, true, [(Address.loopback 0, 4)]⟩, ⟨Address.loopback 6, false, [(Address.loopback 3, 1)]⟩]
    A.Nodup ∧ A ≠ [] ∧ (rs.map Report.sender).Perm A ∧ (replay empty []).reported = [] ∧
      (reportAll A (replay empty []) rs).1 = [none, none,
        some [(Address.loopback 0, 4), (Address.loopback 3, 3), (Address.loopback 6, 1)]] ∧
      (reportAll A (replay empty []) rs).2.takeAgain = (true, empty) := by
  intro A rs
  have hA : A.Nodup := by decide
  have hne : A ≠ [] := by simp [A]
  have hperm : (rs.map Report.sender).Perm A := by decide
  obtain ⟨h1, -, -, h4⟩ := tally_distributes_reports [] A rs hA hne hperm rfl
  refine ⟨hA, hne, hperm, rfl, by rw [h1]; decide, by rw [h4]; rfl⟩

/-- The answer follows the order of the agent list, not address order; an agent listed twice is
waited for twice, so its one report answers nothing; and a count past the largest word wraps. -/
theorem tally_answer_follows_agent_list :
    (reportAll [Address.loopback 3, Address.loopback 0] empty
        [⟨Address.loopback 3, false, []⟩, ⟨Address.loopback 0, false, []⟩]).1 =
      [none, some [(Address.loopback 3, 0), (Address.loopback 0, 0)]] ∧
      Address.compare (Address.loopback 0) (Address.loopback 3) = .lt ∧
    (reportAll [Address.loopback 0, Address.loopback 0] empty [⟨Address.loopback 0, false, []⟩]).1 =
      [none] ∧
    (reportAll [Address.loopback 0] empty
        [⟨Address.loopback 0, false, [(Address.loopback 0, Nat.pow 2 64 - 1), (Address.loopback 0, 1)]⟩]).1 =
      [some [(Address.loopback 0, 0)]] := by
  decide

end Tally

end ShardStore
