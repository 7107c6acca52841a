import ShardStore.Proofs.Barrier.Steps
import Mathlib.Data.List.TakeWhile
/-!
The end of a barrier, the synchronizer's decision, and every step.

When the last agent arrives, the synchronizer ends the barrier everywhere. Every agent has then
reported and arrived, so each is sent the end of the barrier it waits in, nothing of the barrier
is left in flight, and the kind of the next barrier follows from this one's, unless this one
closed a round. At the end of a closing barrier the synchronizer decides what comes next and tells
every agent; the flags it decides from are those of every agent, since every agent reported in
the closing barrier. In the graph stage, an agent leaving the stage's first barrier sends its
vertex list to every agent.

With these moves every move of `Moves` keeps the lock-step invariant, and `Inv.step` says so for
every step.
-/

namespace ShardStore

namespace Lockstep

variable {Q : Roster}

/-! ### Knowing one more barrier kind -/

/-- Where a signal other than a command may wait does not depend on the course. -/
theorem Placed.course {C C' : Course} {c : Address} {p : Place} {x : Signal}
    (h : Placed Q C c p x) (hx : x.isCommand = false) : Placed Q C' c p x := by
  cases x <;> simp_all [Placed, Signal.isCommand]

namespace Own

variable {C : Course} {c : Address} {p : Place} {w : Standing}

/-- No command waits for an agent while the current barrier's kind is unknown. -/
theorem no_command (h : Own Q C c p w) (hlen : C.kinds.length = C.closed) :
    w.signals.countP Signal.isCommand = 0 := by
  refine List.countP_eq_zero.mpr fun x hx hcmd => ?_
  have hnone : C.kinds[C.closed]? = none := List.getElem?_eq_none (by omega)
  cases x <;> simp_all [Signal.isCommand]
  all_goals
    have := (h.placed _ hx).1
    simp_all

/-- The course learns the kind of the current barrier, which was unknown. -/
theorem extend (h : Own Q C c p w) (hlen : C.kinds.length = C.closed) {ks : List Phase}
    (halg : ks[0]? = some .stageAlgProcess → ¬(p.waits = true ∧ p.ends = C.closed) →
      w.again = false) :
    Own Q { C with kinds := C.kinds ++ ks } c p w := by
  have hle : p.ends ≤ C.kinds.length := by rcases h.ends with h' | h' <;> omega
  have hlast : Course.last { C with kinds := C.kinds ++ ks } p = C.last p := by
    unfold Course.last
    split
    · rfl
    · rename_i n hn
      exact List.getElem?_append_left (by omega)
  have hcmd := h.no_command hlen
  refine ⟨h.ends, h.ends_count, fun hw => ?_, fun hw => ?_, h.dealt, fun y hy => ?_, h.commands,
    h.end_first, fun hk hn => ?_, h.collected, h.collected_sorted, ?_, h.ready⟩
  · have hk := h.waits_kind hw
    show (C.kinds ++ ks)[p.ends]? = _
    rw [List.getElem?_append_left (List.getElem?_eq_some_iff.mp hk).1]
    exact hk
  · rw [hlast]
    exact h.resumes hw
  · exact (h.placed y hy).course (by simpa using List.countP_eq_zero.mp hcmd y hy)
  · refine halg ?_ hn
    have hk' : (C.kinds ++ ks)[C.closed]? = some .stageAlgProcess := hk
    rwa [List.getElem?_append_right (by omega), hlen, Nat.sub_self] at hk'
  · show _ ≤ if Course.last { C with kinds := C.kinds ++ ks } p = _ ∧ _ then 1 else 0
    rw [hlast]
    exact h.own_vertices

/-- A stage command pushed where it belongs, to an agent with no command waiting. -/
theorem push_command (h : Own Q C c p w) {x : Signal} (hx : Placed Q C c p x)
    (hcmd : x.isCommand = true) (hnone : w.signals.countP Signal.isCommand = 0) :
    Own Q C c p (w.push (some x)) := by
  have hend : x ≠ .endBarrier := by
    rintro rfl
    cases hcmd
  have hv : x ≠ .vertices c := by
    rintro rfl
    cases hcmd
  refine ⟨h.ends, ?_, h.waits_kind, fun hw => (h.resumes hw).congr rfl rfl, h.dealt,
    fun y hy => ?_, ?_, ?_, h.alg_again, h.collected, h.collected_sorted, ?_, h.ready⟩
  · simpa [Standing.push, List.count_cons, hend] using h.ends_count
  · rcases List.mem_append.mp hy with hy | hy
    · exact h.placed y hy
    · rw [List.mem_singleton.mp hy]
      exact hx
  · simp [Standing.push, List.countP_append, hnone, hcmd]
  · -- everything before the command is dropped up to it
    have hdrop : (w.signals ++ [x]).dropWhile (fun y => !y.isCommand) = [x] := by
      rw [List.dropWhile_append, if_pos (List.isEmpty_iff.mpr (List.dropWhile_eq_nil_iff.mpr
        fun y hy => by simpa using List.countP_eq_zero.mp hnone y hy))]
      simp [hcmd]
    intro hmem
    rw [show (w.push (some x)).signals = w.signals ++ [x] from rfl, hdrop] at hmem
    exact hend (List.mem_singleton.mp hmem).symm
  · have hc : [x].count (Signal.vertices c) = 0 := by simp [hv]
    show (w.signals ++ [x]).count _ + _ ≤ _
    rw [List.count_append, hc, Nat.add_zero]
    exact h.own_vertices

/-- The barrier an agent waits in ends: it is sent the end, and the course moves on. -/
theorem release (h : Own Q C c p w) (hp : p.waits = true ∧ p.ends = C.closed)
    (hlen : C.kinds.length = C.closed + 1) :
    Own Q (C.after .releases) c p (w.push (some .endBarrier)) := by
  have hno : ∀ y ∈ w.signals, y.isCommand = false := fun y hy =>
    (h.placed y hy).not_command_of_waits hp
  have hcmd : w.signals.countP Signal.isCommand = 0 :=
    List.countP_eq_zero.mpr fun y hy => by simp [hno y hy]
  have hend := h.count_end_eq_zero hp.2
  have hlt : p.ends < C.kinds.length := (List.getElem?_eq_some_iff.mp (h.waits_kind hp.1)).1
  have hlast : (C.after .releases).last p = C.last p := by
    unfold Course.last
    split
    · rfl
    · exact List.getElem?_append_left (by omega)
  refine ⟨.inr ⟨by simp [Course.after, hp.2], hp.1⟩, ?_, fun _ => ?_, fun hw => absurd hp.1
    (by simp [hw]), fun hd => by simp [Course.after] at hd, fun y hy => ?_, ?_, ?_, fun hk _ => ?_,
    h.collected, h.collected_sorted, ?_, h.ready⟩
  · show (w.signals ++ [_]).count _ + p.ends = C.closed + 1
    rw [List.count_append, hend, hp.2]
    simp [Nat.add_comm]
  · show (C.kinds ++ _)[p.ends]? = _
    rw [List.getElem?_append_left hlt]
    exact h.waits_kind hp.1
  · rcases List.mem_append.mp hy with hy | hy
    · exact (h.placed y hy).course (hno y hy)
    · rw [List.mem_singleton.mp hy]
      trivial
  · simp [Standing.push, List.countP_append, hcmd, Signal.isCommand]
  · have hdrop : (w.signals ++ [Signal.endBarrier]).dropWhile
        (fun y : Signal => !y.isCommand) = [] :=
      List.dropWhile_eq_nil_iff.mpr fun y hy => by
        rcases List.mem_append.mp hy with hy | hy
        · simp [hno y hy]
        · rw [List.mem_singleton.mp hy]
          rfl
    intro hmem
    rw [show (w.push (some .endBarrier)).signals = w.signals ++ [Signal.endBarrier] from rfl,
      hdrop] at hmem
    exact List.not_mem_nil hmem
  · -- the barrier after a released one is never the graph stage's
    have hk' : (C.kinds ++ (C.kinds[C.closed]?.bind Phase.after?).toList)[C.closed + 1]? =
        some .stageAlgProcess := hk
    rw [List.getElem?_append_right (by omega), hlen, Nat.sub_self] at hk'
    rcases hkc : C.kinds[C.closed]? with _ | k
    · simp [hkc] at hk'
    · cases k <;> simp [hkc, Phase.after?] at hk'
  · show (w.signals ++ [Signal.endBarrier]).count _ + (if c ∈ w.collected then 1 else 0) ≤
      if (C.after .releases).last p = _ ∧ _ then 1 else 0
    rw [hlast, List.count_append, List.count_singleton, if_neg (by simp), Nat.add_zero]
    exact h.own_vertices

/-- An agent's own vertex list reaches it once it has left the graph stage's first barrier. -/
theorem push_own_vertices (h : Own Q C c p w) (hca : c ∈ Q.agents)
    (hl : C.last p = some .stageAlgProcess) (hw : p.waits = false)
    (hv : w.signals.count (.vertices c) = 0) (hc : c ∉ w.collected) :
    Own Q C c p (w.push (some (.vertices c))) := by
  refine ⟨h.ends, ?_, h.waits_kind, fun hw' => (h.resumes hw').congr rfl rfl, h.dealt,
    fun y hy => ?_, ?_, ?_, h.alg_again, h.collected, h.collected_sorted, ?_, h.ready⟩
  · simpa [Standing.push, List.count_cons] using h.ends_count
  · rcases List.mem_append.mp hy with hy | hy
    · exact h.placed y hy
    · rw [List.mem_singleton.mp hy]
      exact hca
  · simpa [Standing.push, Signal.isCommand] using h.commands
  · intro hmem
    simp only [Standing.push, Option.toList_some, List.dropWhile_append] at hmem
    split at hmem
    · simp [Signal.isCommand] at hmem
    · rcases List.mem_append.mp hmem with hmem | hmem
      · exact h.end_first hmem
      · simp at hmem
  · show (w.signals ++ [_]).count _ + (if c ∈ w.collected then 1 else 0) ≤ _
    rw [List.count_append, hv, if_neg hc, if_pos ⟨hl, hw⟩]
    simp

/-- The synchronizer's decision reaches an agent: the course learns the kind of the barrier to
come, and the agent is sent the command that starts it, if any. -/
theorem decide (h : Own Q C c p w) (hlen : C.kinds.length = C.closed) {next : Option Signal}
    (hnext : next = none ∨ next = some .process ∨ next = some .algProcess)
    (halg : next = some .algProcess → w.again = false) :
    Own Q { C with kinds := C.kinds ++ (next.bind Signal.stage?).toList } c p (w.push next) := by
  -- the barrier to come has no kind yet, so no agent has reported in it
  have hnw : ¬(p.waits = true ∧ p.ends = C.closed) := by
    rintro ⟨hw, he⟩
    have hk := h.waits_kind hw
    rw [he, List.getElem?_eq_none (by omega)] at hk
    cases hk
  have h' : Own Q { C with kinds := C.kinds ++ (next.bind Signal.stage?).toList } c p w :=
    h.extend hlen fun hk _ => halg (by
    rcases hnext with rfl | rfl | rfl <;> simp_all [Signal.stage?])
  have hcur : ∀ k, next.bind Signal.stage? = some k →
      (C.kinds ++ (next.bind Signal.stage?).toList)[C.closed]? = some k := fun k hk => by
    rw [List.getElem?_append_right (by omega), hlen, Nat.sub_self, hk]
    rfl
  rcases hnext with rfl | rfl | rfl
  · simpa using h'
  · exact h'.push_command ⟨hcur _ rfl, hnw⟩ rfl (h.no_command hlen)
  · exact h'.push_command ⟨hcur _ rfl, hnw⟩ rfl (h.no_command hlen)

end Own

namespace AtSync

variable {C : Course} {b : Address} {p : Place} {w w' sync sync' : Standing}

/-- The barrier ends: the agent had reported and arrived, so nothing of the barrier is left of it
at the synchronizer, and it waits for nothing. -/
theorem release (h : AtSync Q C b p w sync) (hp : p.waits = true ∧ p.ends = C.closed)
    (hd : C.dealt = true) (hlen : C.kinds.length = C.closed + 1)
    (hclose : C.kinds[C.closed]?.bind Phase.after? = none →
      C.kinds[C.closed]? = some .stageClosing)
    (hgone : w.signals.count .dist + (if w.expects = true then 1 else 0) +
      sync'.signals.count (.arrived b) = 0)
    (hrep : sync'.signals.countP (Signal.isReportFrom b) =
      sync.signals.countP (Signal.isReportFrom b))
    (hr : sync'.reported = sync.reported) (ha : sync'.arrived = [])
    (ht : sync'.tallyAgain = sync.tallyAgain) (hag : w'.again = w.again)
    (hex : w'.expects = w.expects) (hdist : w'.signals.count .dist = w.signals.count .dist) :
    AtSync Q (C.after .releases) b p w' sync' := by
  -- the counts were out, so no report of the agent is anywhere
  have hnorep : sync.signals.countP (Signal.isReportFrom b) +
      (if b ∈ sync.reported then 1 else 0) = 0 := by
    have := h.reports
    rw [if_neg (show ¬(p.waits = true ∧ p.ends = C.closed ∧ C.dealt = false) by simp [hd])]
      at this
    omega
  refine ⟨fun v hv => ?_, ?_, ?_, fun _ _ _ he => ?_, fun hl hg => ?_⟩
  · have : 0 < sync'.signals.countP (Signal.isReportFrom b) :=
      List.countP_pos_iff.mpr ⟨_, hv, by simp [Signal.isReportFrom]⟩
    omega
  · rw [hrep, hr]
    omega
  · rw [hdist, hex, ha]
    simp only [List.not_mem_nil, if_false, Nat.add_zero]
    omega
  · simp [Course.after, hp.2] at he
  · -- with no next kind, the barrier closed a round, where the flag reached the synchronizer
    have hnone : C.kinds[C.closed]?.bind Phase.after? = none := by
      have hl' : (C.kinds ++ (C.kinds[C.closed]?.bind Phase.after?).toList).length =
          C.closed + 1 := hl
      rw [List.length_append, hlen] at hl'
      cases hx : C.kinds[C.closed]?.bind Phase.after? with
      | none => rfl
      | some q => simp [hx] at hl'
    rw [ht]
    exact h.tally_again (hclose hnone) (hag ▸ hg) hp.1 hp.2 (.inr hd)

/-- The synchronizer decides the kind of the next barrier and lowers its flag; an agent is sent
the command, if any. -/
theorem decide (h : AtSync Q C b p w sync) (hlen : C.kinds.length = C.closed) {ks : List Phase}
    (hks : ∀ k ∈ ks, k ≠ .stageClosing) (hquiet : ks = [] → w'.again = false)
    (hag : w'.again = w.again) (hex : w'.expects = w.expects)
    (hdist : w'.signals.count .dist = w.signals.count .dist)
    (hsig : Signal.about b sync'.signals = Signal.about b sync.signals)
    (hr : sync'.reported = sync.reported) (ha : sync'.arrived = sync.arrived) :
    AtSync Q { C with kinds := C.kinds ++ ks } b p w' sync' := by
  have h' : AtSync Q C b p w' { sync' with tallyAgain := sync.tallyAgain } :=
    (h.congr_own hag hex hdist).congr_sync hsig (by rw [hr]) (by rw [ha]) id
  refine ⟨h'.flags, h'.reports, h'.arrivals, fun hk => ?_, fun hl hg => ?_⟩
  · have hk' : (C.kinds ++ ks)[C.closed]? = some .stageClosing := hk
    rw [List.getElem?_append_right (by omega), hlen, Nat.sub_self] at hk'
    exact absurd rfl (hks _ (List.mem_of_getElem? hk'))
  · have hl' : (C.kinds ++ ks).length = C.closed := hl
    rw [List.length_append, hlen] at hl'
    rw [hquiet (List.eq_nil_of_length_eq_zero (by omega))] at hg
    cases hg

end AtSync

namespace Global

variable {C : Course} {ps ps' : Place} {sync sync' : Standing}

/-- The barrier ends, and the kind of the next follows unless it closed a round. -/
theorem release (h : Global Q C ps sync) (hlen : C.kinds.length = C.closed + 1)
    (hclose : C.kinds[C.closed]?.bind Phase.after? = none →
      C.kinds[C.closed]? = some .stageClosing)
    (hr : sync'.reported = sync.reported) (ha : sync'.arrived = []) :
    Global Q (C.after .releases) ps sync' := by
  have hcur : ∃ k, C.kinds[C.closed]? = some k := ⟨_, List.getElem?_eq_getElem (by omega)⟩
  obtain ⟨k, hk⟩ := hcur
  refine ⟨?_, fun i p q hp hq => ?_, ?_, fun n hn hkn hl => ?_, hr ▸ h.reported,
    hr ▸ h.reported_sorted, by rw [ha]; simp, by rw [ha]; exact .nil⟩
  · show (C.kinds ++ _)[0]? = _
    rw [List.getElem?_append_left (by omega)]
    exact h.kinds_head
  · have hp' : (C.kinds ++ (C.kinds[C.closed]?.bind Phase.after?).toList)[i]? = some p := hp
    have hq' : (C.kinds ++ (C.kinds[C.closed]?.bind Phase.after?).toList)[i + 1]? = some q := hq
    rcases Nat.lt_or_ge (i + 1) C.kinds.length with hi | hi
    · rw [List.getElem?_append_left (by omega)] at hp'
      rw [List.getElem?_append_left hi] at hq'
      exact h.kinds_follow i p q hp' hq'
    · -- the one new pair: the last known kind and the one after it
      rw [List.getElem?_append_right hi, hk] at hq'
      obtain ⟨hi', hq''⟩ : i + 1 - C.kinds.length = 0 ∧ k.after? = some q := by
        cases hx : k.after? with
        | none => simp [hx] at hq'
        | some q' =>
          simp only [hx, Option.bind_some, Option.toList_some] at hq'
          rcases hj : i + 1 - C.kinds.length with _ | j
          · rw [hj] at hq'
            simpa using hq'
          · rw [hj] at hq'
            simp at hq'
      have hi'' : i = C.closed := by omega
      rw [List.getElem?_append_left (by omega), hi'', hk] at hp'
      cases hp'
      exact Phase.follows_of_after? hq''
  · cases hx : k.after? with
    | none =>
      have hb : C.kinds[C.closed]?.bind Phase.after? = none := by rw [hk]; exact hx
      refine .inr ⟨?_, C.closed, rfl, ?_⟩
      · show (C.kinds ++ (C.kinds[C.closed]?.bind Phase.after?).toList).length = C.closed + 1
        rw [hb]
        simp [hlen]
      · show (C.kinds ++ _)[C.closed]? = _
        rw [List.getElem?_append_left (by omega)]
        exact hclose hb
    | some q =>
      have hb : C.kinds[C.closed]?.bind Phase.after? = some q := by rw [hk]; exact hx
      refine .inl ?_
      show (C.kinds ++ (C.kinds[C.closed]?.bind Phase.after?).toList).length = C.closed + 1 + 1
      rw [hb]
      simp [hlen]
  · -- a round that closes has no next kind yet
    have hn' : n = C.closed := by
      have : C.closed + 1 = n + 1 := hn
      omega
    subst hn'
    have hkn' : (C.kinds ++ _)[C.closed]? = some Phase.stageClosing := hkn
    rw [List.getElem?_append_left (by omega), hk] at hkn'
    cases hkn'
    have hb : C.kinds[C.closed]?.bind Phase.after? = none := by rw [hk]; rfl
    have hl' : (C.kinds ++ (C.kinds[C.closed]?.bind Phase.after?).toList).length =
        C.closed + 1 + 1 := hl
    rw [hb] at hl'
    simp [hlen] at hl'

/-- The synchronizer decides the kind of the next barrier, a stage's if any, once it has left
the closing barrier. -/
theorem decide (h : Global Q C ps sync) (hlen : C.kinds.length = C.closed) {ks : List Phase}
    (hks : ks = [] ∨ ks = [.stageBegin] ∨ ks = [.stageAlgProcess]) (hps : ps'.ends = C.closed)
    (hr : sync'.reported = sync.reported) (ha : sync'.arrived = sync.arrived) :
    Global Q { C with kinds := C.kinds ++ ks } ps' sync' := by
  obtain ⟨n, hn, hkn⟩ : ∃ n, C.closed = n + 1 ∧ C.kinds[n]? = some .stageClosing := by
    rcases h.kinds_length with h' | h'
    · omega
    · exact h'.2
  refine ⟨?_, fun i p q hp hq => ?_, ?_, fun _ _ _ _ => hps, hr ▸ h.reported,
    hr ▸ h.reported_sorted, ha ▸ h.arrived, ha ▸ h.arrived_sorted⟩
  · show (C.kinds ++ ks)[0]? = _
    rw [List.getElem?_append_left (by omega)]
    exact h.kinds_head
  · have hp' : (C.kinds ++ ks)[i]? = some p := hp
    have hq' : (C.kinds ++ ks)[i + 1]? = some q := hq
    rcases Nat.lt_or_ge (i + 1) C.kinds.length with hi | hi
    · rw [List.getElem?_append_left (by omega)] at hp'
      rw [List.getElem?_append_left hi] at hq'
      exact h.kinds_follow i p q hp' hq'
    · -- the one new pair: the closing barrier and the stage decided after it
      rw [List.getElem?_append_right hi] at hq'
      have hi' : i = n := by
        rcases hks with rfl | rfl | rfl <;>
          (rcases hj : i + 1 - C.kinds.length with _ | j <;> simp_all) <;> omega
      subst hi'
      rw [List.getElem?_append_left (by omega), hkn] at hp'
      cases hp'
      rw [show i + 1 - C.kinds.length = 0 by omega] at hq'
      rcases hks with rfl | rfl | rfl <;> simp at hq' <;> subst hq' <;> constructor
  · rcases hks with rfl | rfl | rfl
    · exact .inr ⟨by simpa using hlen, n, hn, by simpa using hkn⟩
    all_goals exact .inl (by simp [hlen])

end Global


/-! ### The ghost after the synchronizer's answers -/

/-- Ending a barrier moves no agent. -/
theorem Ghost.after_releases {g : Ghost} {a : Address} {o : Option Signal}
    (ho : o ≠ some .endBarrier) :
    g.after a o .releases = ⟨g.course.after .releases, g.place⟩ := by
  simp [Ghost.after, Place.after_of_ne ho]

/-- Deciding, the synchronizer leaves the closing barrier. -/
theorem Ghost.after_decides {g : Ghost} {a : Address} {next : Option Signal} :
    g.after a (some .endBarrier) (.decides next) =
      ⟨{ g.course with kinds := g.course.kinds ++ (next.bind Signal.stage?).toList },
        Function.update g.place a ⟨(g.place a).ends + 1, false⟩⟩ := by
  simp [Ghost.after, Course.after, Place.after_end]

namespace Inv

variable {g : Ghost} {W : View} {a : Address} {rest : List Signal}

/-- The last arrival is taken, and the barrier ends everywhere. -/
theorem release (hQ : Q.Sound) (hI : Inv Q g W) (ha : a ∈ Q.agents) {b : Address}
    (hsig : (W a).signals = .arrived b :: rest)
    (h : Q.agents.length ≤ (Address.insertSorted b (W a).arrived).length) :
    Inv Q (g.after a (some (.arrived b)) .releases)
      (((W.set a fun w => { w with signals := rest }).set a fun w =>
        { w with arrived := [] }).postAll Q.agents fun _ => some .endBarrier) := by
  obtain ⟨hsa, hb⟩ : a = Q.sync ∧ b ∈ Q.agents :=
    (hI.own a ha).placed (.arrived b) (by rw [hsig]; exact List.mem_cons_self)
  subst hsa
  have hG := hI.global
  -- every agent has arrived
  have hall : ∀ c ∈ Q.agents, c = b ∨ c ∈ (W Q.sync).arrived := fun c hc => by
    refine Address.mem_insertSorted.mp (mem_of_length_le (fun x hx => ?_)
      (Address.pairwise_insertSorted hG.arrived_sorted) h hc)
    rcases Address.mem_insertSorted.mp hx with rfl | hx
    · exact hb
    · exact hG.arrived x hx
  -- so each has its arrival counted: the counts were out, and nothing else of it is left
  have hgone : ∀ c ∈ Q.agents, g.course.dealt = true ∧ (W c).signals.count .dist +
      (if (W c).expects = true then 1 else 0) + rest.count (.arrived c) = 0 := fun c hc => by
    have harr := (hI.atSync c hc).arrivals
    have hcount : (Signal.arrived b :: rest).count (.arrived c) =
        rest.count (.arrived c) + if c = b then 1 else 0 := by
      by_cases hcb : c = b
      · simp [hcb]
      · simp [hcb, Ne.symm hcb]
    have hone : 1 ≤ (if c = b then 1 else 0) + if c ∈ (W Q.sync).arrived then 1 else 0 := by
      rcases hall c hc with rfl | hm <;> simp [*]
    rw [hsig, hcount] at harr
    cases hd : g.course.dealt
    · rw [hd, if_neg Bool.false_ne_true] at harr
      omega
    · rw [hd, if_pos rfl] at harr
      exact ⟨rfl, by omega⟩
  have hdealt := (hgone _ ha).1
  have hwait : ∀ c ∈ Q.agents,
      (g.place c).waits = true ∧ (g.place c).ends = g.course.closed :=
    fun c hc => (hI.own c hc).dealt hdealt
  have hlen : g.course.kinds.length = g.course.closed + 1 := by
    obtain ⟨hw, he⟩ := hwait _ ha
    have hk := (hI.own _ ha).waits_kind hw
    rw [he] at hk
    have := (List.getElem?_eq_some_iff.mp hk).1
    rcases hG.kinds_length with h' | h' <;> omega
  have hclose : g.course.kinds[g.course.closed]?.bind Phase.after? = none →
      g.course.kinds[g.course.closed]? = some .stageClosing := fun hnone => by
    obtain ⟨k, hk⟩ : ∃ k, g.course.kinds[g.course.closed]? = some k :=
      ⟨_, List.getElem?_eq_getElem (by omega)⟩
    rw [hk] at hnone ⊢
    have hne := hG.kind_ne_preload hk
    cases k <;> simp_all [Phase.after?]
  rw [View.set_set, Ghost.after_releases (by simp)]
  refine ⟨?_, fun c hc => ?_, fun c hc => ?_⟩
  · rw [View.postAll_of_mem hQ ha, View.set_self]
    exact hG.release hlen hclose rfl rfl
  · rw [View.postAll_of_mem hQ hc]
    have hown : Own Q g.course c (g.place c)
        (W.set Q.sync (fun w => { w with signals := rest, arrived := [] }) c) := by
      rw [View.set_apply]
      split_ifs with hcs
      · subst hcs
        exact ((hI.own _ hc).pop hsig (by simp) rfl (by simp)).congr rfl rfl rfl rfl rfl
      · exact hI.own c hc
    exact hown.release (hwait c hc) hlen
  · rw [View.postAll_of_mem hQ hc, View.postAll_of_mem hQ ha, View.set_self]
    -- of every agent, the synchronizer's step keeps the counts, the flag and what it expects
    refine (hI.atSync c hc).release (hwait c hc) hdealt hlen hclose ?_ ?_ rfl rfl rfl
      (by rw [View.set_apply]; split_ifs with hcs <;> simp_all [Standing.push])
      (by rw [View.set_apply]; split_ifs with hcs <;> simp_all [Standing.push]) ?_
    · simpa [Standing.push, List.count_append] using (hgone c hc).2
    · simp [Standing.push, List.countP_append, hsig, Signal.isReportFrom]
    · rw [View.set_apply]
      split_ifs with hcs
      · subst hcs
        simp [Standing.push, List.count_append, hsig]
      · simp [Standing.push, List.count_append]

/-- The synchronizer, having left the closing barrier, decides what comes next from the flags it
took, lowers its flag and tells every agent. -/
theorem decideNext (hQ : Q.Sound) (hI : Inv Q g W) (hlen : g.course.kinds.length = g.course.closed)
    (hs : (g.place Q.sync).ends = g.course.closed) {next : Option Signal}
    (hnext : Signal.Decides (W Q.sync).tallyAgain next) :
    Inv Q
      ⟨{ g.course with kinds := g.course.kinds ++ (next.bind Signal.stage?).toList }, g.place⟩
      ((W.set Q.sync fun w => { w with tallyAgain := false }).postAll Q.agents fun _ => next) := by
  -- unless another round is decided, no agent asked for one: every flag reached the synchronizer
  have hquiet : next ≠ some .process → ∀ c ∈ Q.agents, (W c).again = false :=
    fun hn c hc => by
      have htally : (W Q.sync).tallyAgain = false := by
        rcases hnext with ⟨_, hp⟩ | ⟨ht, _⟩
        · exact absurd hp hn
        · exact ht
      cases hg : (W c).again
      · rfl
      · rw [(hI.atSync c hc).undecided_again hlen hg] at htally
        cases htally
  have hnext' : next = none ∨ next = some .process ∨ next = some .algProcess := by
    rcases hnext with ⟨_, h⟩ | ⟨_, h | h⟩ <;> simp [h]
  -- a command carries nothing about an agent, and no count
  have habout : ∀ b, Signal.about b next.toList = [] ∧ next.toList.count .dist = 0 :=
    fun b => by
      rcases hnext' with rfl | rfl | rfl <;> simp [Signal.about, Signal.from?]
  set ks := (next.bind Signal.stage?).toList with hks_def
  have hks : ks = [] ∨ ks = [.stageBegin] ∨ ks = [.stageAlgProcess] := by
    rcases hnext' with rfl | rfl | rfl <;> simp [ks, Signal.stage?]
  have hks_ne : ∀ k ∈ ks, k ≠ .stageClosing := by
    rcases hks with hks | hks | hks <;> rw [hks] <;> simp
  have hks_nil : ks = [] → next ≠ some .process := by
    rintro hk0 rfl
    simp [ks, Signal.stage?] at hk0
  -- lowering the synchronizer's flag changes nothing else
  have hlower : ∀ c, W.set Q.sync (fun w => { w with tallyAgain := false }) c =
      { W c with tallyAgain := if c = Q.sync then false else (W c).tallyAgain } := fun c => by
    rw [View.set_apply]
    split_ifs with hcs
    · subst hcs
      rfl
    · rfl
  have hsa := hQ.sync_mem
  refine ⟨?_, fun c hc => ?_, fun b hb => ?_⟩
  · rw [View.postAll_of_mem hQ hsa, View.set_self]
    exact hI.global.decide hlen hks hs rfl rfl
  · rw [View.postAll_of_mem hQ hc, hlower]
    refine Own.decide ?_ hlen hnext' fun halg => hquiet (by rw [halg]; simp) c hc
    exact (hI.own c hc).congr rfl rfl rfl rfl rfl
  · rw [View.postAll_of_mem hQ hb, View.postAll_of_mem hQ hsa, View.set_self, hlower]
    refine (hI.atSync b hb).decide hlen hks_ne (fun hk0 => hquiet (hks_nil hk0) b hb) rfl rfl
      ?_ ?_ rfl rfl
    · show ((W b).signals ++ next.toList).count _ = _
      rw [List.count_append, (habout b).2, Nat.add_zero]
    · show Signal.about b ((W Q.sync).signals ++ next.toList) = _
      rw [Signal.about_append, (habout b).1, List.append_nil]

/-- The synchronizer, leaving the closing barrier, decides what comes next and tells every
agent. -/
theorem decide (hQ : Q.Sound) (hI : Inv Q g W) (ha : a ∈ Q.agents)
    (hsig : (W a).signals = .endBarrier :: rest) (h : (W a).phase = .stageClosing)
    (hs : a = Q.sync) {next : Option Signal} (hnext : Signal.Decides (W a).tallyAgain next) :
    Inv Q (g.after a (some .endBarrier) (.decides next))
      (((W.set a fun w => { w with signals := rest }).set a fun w =>
        { w with phase := if w.again then .stageBegin else .preload, tallyAgain := false }).postAll
          Q.agents fun _ => next) := by
  subst hs
  obtain ⟨he, hk, -⟩ := (hI.own _ ha).of_end hsig
  rw [h] at hk
  -- the closing barrier has ended, and the synchronizer has not decided yet
  have hlen : g.course.kinds.length = g.course.closed := by
    rcases hI.global.kinds_length with h' | h'
    · have := hI.global.decided _ he.symm hk h'
      omega
    · exact h'.1
  -- it leaves the barrier as any agent does, and then decides
  have hI' := hI.reopen ha hsig h
  rw [View.set_set, Ghost.after_end_quiet] at hI'
  have h' := hI'.decideNext hQ hlen (by simp [he]) (show Signal.Decides _ next by simpa using hnext)
  rw [View.set_set] at h'
  rw [View.set_set, Ghost.after_decides]
  exact h'

/-! ### The graph stage's vertex lists -/

/-- An agent that has left the graph stage's first barrier sends its vertex list to every agent,
itself included; any frame may fail to decode. -/
theorem postVertices (hQ : Q.Sound) (hI : Inv Q g W) (ha : a ∈ Q.agents)
    (hl : g.course.last (g.place a) = some .stageAlgProcess) (hw : (g.place a).waits = false)
    (hv : (W a).signals.count (.vertices a) = 0) (hcol : a ∉ (W a).collected)
    {o : Address → Option Signal} (ho : ∀ b, Signal.Lossy (.vertices a) (o b)) :
    Inv Q g (W.postAll Q.agents o) := by
  -- a vertex list is about no agent's reports and carries no count
  have hpush : ∀ w : Standing, ∀ b c, Signal.about b ((w.push (o c)).signals) =
      Signal.about b w.signals ∧ (w.push (o c)).signals.count .dist = w.signals.count .dist :=
    fun w b c => by
      rcases ho c with h0 | h0 <;> rw [h0] <;>
        simp [Standing.push, Signal.about, Signal.from?, List.count_append]
  refine ⟨?_, fun c hc => ?_, fun b hb => ?_⟩
  · rw [View.postAll_of_mem hQ hQ.sync_mem]
    exact hI.global.congr rfl rfl rfl
  · rw [View.postAll_of_mem hQ hc]
    rcases ho c with h0 | h0 <;> rw [h0]
    · simpa using hI.own c hc
    · rcases eq_or_ne c a with rfl | hca
      · exact (hI.own c hc).push_own_vertices hc hl hw hv hcol
      · exact (hI.own c hc).push ha (by simp) rfl (fun h' => hca (Signal.vertices.inj h').symm)
  · rw [View.postAll_of_mem hQ hb, View.postAll_of_mem hQ hQ.sync_mem]
    have h1 : AtSync Q g.course b (g.place b) ((W b).push (o b)) (W Q.sync) :=
      (hI.atSync b hb).congr_own rfl rfl (hpush _ b b).2
    exact h1.congr_sync (hpush _ b _).1 Iff.rfl Iff.rfl id

/-- In the graph stage, an agent leaving the stage's first barrier sends its vertex list to
every agent. -/
theorem sendVertices (hQ : Q.Sound) (hI : Inv Q g W) (ha : a ∈ Q.agents)
    (hsig : (W a).signals = .endBarrier :: rest) (h : (W a).phase = .stageAlgProcess)
    {o : Address → Option Signal} (ho : ∀ b, Signal.Lossy (.vertices a) (o b)) :
    Inv Q (g.after a (some .endBarrier) .quiet)
      ((W.set a fun w => { w with signals := rest }).postAll Q.agents o) := by
  have hown := hI.own a ha
  obtain ⟨he, hk, hd⟩ := hown.of_end hsig
  rw [h] at hk
  have hw := (hown.waits_of_end (by rw [hsig]; exact List.mem_cons_self)).1
  have hp : ¬((g.place a).waits = true ∧ (g.place a).ends = g.course.closed) :=
    fun h' => absurd h'.2 (by omega)
  -- having reported, the agent has no vertex list yet
  have hvert :
      (W a).signals.count (.vertices a) + (if a ∈ (W a).collected then 1 else 0) = 0 := by
    have := hown.own_vertices
    simp only [hw, Bool.true_eq_false, and_false, if_false] at this
    omega
  -- the barrier after the graph stage's first is no graph stage's
  have halg : g.course.kinds[g.course.closed]? ≠ some .stageAlgProcess := fun hk' => by
    rw [← he] at hk'
    cases hI.global.kinds_follow _ _ _ hk hk'
  have hI' := hI.leave ha (f := fun w => { w with signals := rest }) (v := false) (o := none) hsig
    rfl rfl rfl rfl rfl rfl (fun _ h => by cases h) (fun _ => by rw [h]; rfl) (by simp)
    (fun hk' _ => absurd hk' halg) ?_
  · rw [View.post_none] at hI'
    rw [Ghost.after_end_quiet]
    refine hI'.postVertices hQ ha ?_ (by simp) ?_ ?_ ho
    · simpa [Course.last] using hk
    · rw [View.set_self]
      show rest.count _ = 0
      have := hvert
      rw [hsig, List.count_cons] at this
      omega
    · rw [View.set_self]
      show a ∉ (W a).collected
      intro hm
      rw [if_pos hm] at hvert
      omega
  · refine ((hI.atSync a ha).restart hp hd (by rfl) ?_
      (by exact (hI.atSync a ha).undecided_again)).congr_sync (by simp) Iff.rfl Iff.rfl id
    show rest.count _ = _
    simp [hsig]

/-! ### Every step -/

/-- Every step keeps the lock-step invariant, for the ghost the step moves on. -/
theorem step (hQ : Q.Sound) (hI : Inv Q g W) (ha : a ∈ Q.agents) {o : Option Signal} {act : Act}
    {W' : View} (hs : Step Q a o act W W') : Inv Q (g.after a o act) W' := by
  obtain ⟨rest, hsig, hmove⟩ := hs
  -- the guards of a move read the agent's standing once its frame is taken
  cases hmove with
  | quiet => exact hI.quiet ha hsig
  | arrive _ h => exact hI.arrive ha hsig (by simpa using h)
  | compute _ h => exact hI.compute ha hsig (by simpa using h)
  | finish _ h o ho => exact hI.finish ha hsig (by simpa using h) (by simpa using ho)
  | process _ o ho => exact hI.command ha (by rfl) hsig ho
  | algProcess _ o ho => exact hI.command ha (by rfl) hsig ho
  | tally => exact hI.tally ha hsig
  | deal _ b v h => exact hI.deal hQ ha hsig (by simpa using h)
  | expect => exact hI.expect ha hsig
  | expectArrive => exact hI.expectArrive ha hsig
  | gather => exact hI.gather ha hsig
  | release _ b h => exact hI.release hQ ha hsig (by simpa using h)
  | endIdle _ h => exact absurd (by simpa using h) (hI.phase_ne_preload_of_end ha hsig)
  | sweep _ h v => exact hI.sweep ha hsig (by simpa using h) v
  | swept _ h v o ho => exact hI.swept ha hsig (by simpa using h) v ho
  | close _ h => exact hI.close ha hsig (by simpa using h)
  | closed _ h o ho => exact hI.closed ha hsig (by simpa using h) (by simpa using ho)
  | reopen _ h => exact hI.reopen ha hsig (by simpa using h)
  | decide _ h hs next hnext =>
    exact hI.decide hQ ha hsig (by simpa using h) hs (by simpa using hnext)
  | sendVertices _ h o ho => exact hI.sendVertices hQ ha hsig (by simpa using h) ho
  | collect => exact hI.collect ha hsig
  | collectAll _ b h r v => exact hI.collectAll ha hsig (by simpa using h) r v

end Inv

end Lockstep

end ShardStore
