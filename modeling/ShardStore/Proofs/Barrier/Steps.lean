import ShardStore.Proofs.Barrier.Lockstep
/-!
Every step keeps the lock-step invariant.

A step changes the agent taking it, pushes signals to others, and moves the ghost by what it
did. The invariant is split by what it reads, so most of it carries over by the transfer lemmas
below: `Own` of an agent reads only its signals, stage, flag, vertex lists and engine; `AtSync`
of an agent reads of the synchronizer only the signals about that agent, the lists and the
flag; `Global` reads only the course and the synchronizer's lists. Each move of `Moves` then
has a lemma that re-proves what it changes, and `Inv.step` puts them together.
-/

namespace ShardStore

namespace Signal

/-- The agent a report or an arrival is about. -/
def from? : Signal → Option Address
  | report b _ | arrived b => some b
  | _ => none

/-- The signals about `b` among `l`. -/
def about (b : Address) (l : List Signal) : List Signal :=
  l.filter fun x => decide (x.from? = some b)

theorem countP_eq_countP_about {b : Address} {q : Signal → Bool}
    (hq : ∀ x, q x = true → x.from? = some b) (l : List Signal) :
    l.countP q = (about b l).countP q := by
  rw [about, List.countP_filter]
  congr 1
  funext x
  cases hx : q x
  · rfl
  · simp [hq x hx]

theorem isReportFrom_from? {b : Address} {x : Signal} (h : x.isReportFrom b = true) :
    x.from? = some b := by
  cases x <;> simp_all [isReportFrom, from?]

theorem mem_about {b : Address} {x : Signal} {l : List Signal} (hx : x.from? = some b) :
    x ∈ about b l ↔ x ∈ l := by
  simp [about, hx]

@[simp] theorem about_append (b : Address) (l l' : List Signal) :
    about b (l ++ l') = about b l ++ about b l' := List.filter_append l l'

theorem about_cons_of_ne {b : Address} {x : Signal} (hx : x.from? ≠ some b) (l : List Signal) :
    about b (x :: l) = about b l := by
  simp [about, hx]

theorem about_of_ne {b : Address} {x : Signal} (hx : x.from? ≠ some b) : about b [x] = [] := by
  simp [about, hx]

end Signal

/-- A kind has one successor. -/
theorem Phase.Follows.eq_of_after? {k q q' : Phase} (h : k.Follows q) (h' : k.after? = some q') :
    q = q' := by
  cases h <;> simp_all [Phase.after?]

namespace Lockstep

variable {Q : Roster}

/-! ### The ghost after a step -/

theorem Ghost.after_place_ne {g : Ghost} {a c : Address} {o : Option Signal} {act : Act}
    (h : c ≠ a) : (g.after a o act).place c = g.place c :=
  Function.update_of_ne h _ _

@[simp] theorem Ghost.after_place_self {g : Ghost} {a : Address} {o : Option Signal}
    {act : Act} : (g.after a o act).place a = (g.place a).after o act :=
  Function.update_self _ _ _

theorem Resumes.congr {k : Option Phase} {w w' : Standing} (h : Resumes k w)
    (hph : w'.phase = w.phase) (hag : w'.again = w.again) : Resumes k w' := by
  rcases k with _ | (_ | _ | _ | _ | _) <;> simp only [Resumes, hph, hag] at h ⊢ <;> exact h

/-! ### What carries over -/

namespace Placed

variable {C : Course} {c : Address} {p p' : Place} {x : Signal}

/-- Where a signal other than a command may wait does not depend on the agent's place. -/
theorem of_not_command (h : Placed Q C c p x) (hx : x.isCommand = false) : Placed Q C c p' x := by
  cases x <;> simp_all [Placed, Signal.isCommand]

/-- A command waits only at an agent that has not reported in the current barrier, -/
theorem of_not_waits (h : Placed Q C c p x) (hw : p'.waits = false) : Placed Q C c p' x := by
  cases x <;> simp_all [Placed]

theorem not_command_of_waits (h : Placed Q C c p x) (hp : p.waits = true ∧ p.ends = C.closed) :
    x.isCommand = false := by
  cases x <;> simp_all [Placed, Signal.isCommand]

/-- and only for a barrier of its own kind. -/
theorem not_command_of_kind (h : Placed Q C c p x) {k : Phase} (hk : C.kinds[C.closed]? = some k)
    (hb : k ≠ .stageBegin) (ha : k ≠ .stageAlgProcess) : x.isCommand = false := by
  cases x <;> simp_all [Placed, Signal.isCommand]

/-- A stage command waits only for the current barrier, of its kind, at an agent that has not
reported in it. -/
theorem command (h : Placed Q C c p x) {k : Phase} (hx : x.stage? = some k) :
    C.kinds[C.closed]? = some k ∧ ¬(p.waits = true ∧ p.ends = C.closed) := by
  cases x <;> simp_all [Placed, Signal.stage?]

/-- Reports and arrivals wait at the synchronizer. -/
theorem of_from? {y : Signal} {a : Address} (hy : y.from? = some a) (ha : a ∈ Q.agents) :
    Placed Q C Q.sync p y := by
  cases y <;> simp_all [Signal.from?, Placed]

end Placed

namespace Own

variable {C : Course} {c : Address} {p : Place} {w w' : Standing}

/-- Of an agent, the invariant reads only its signals, stage, flag, vertex lists and engine. -/
theorem congr (h : Own Q C c p w) (hs : w'.signals = w.signals) (hph : w'.phase = w.phase)
    (hag : w'.again = w.again) (hcol : w'.collected = w.collected) (hrd : w'.ready = w.ready) :
    Own Q C c p w' := by
  obtain ⟨h1, h2, h3, h4, h5, h6, h7, h8, h9, h10, h11, h12, h13⟩ := h
  refine ⟨h1, ?_, ?_, fun hw => (h4 hw).congr hph hag, h5, ?_, ?_, ?_, ?_, ?_, ?_, ?_, ?_⟩
  · rwa [hs]
  · rwa [hph]
  · rwa [hs]
  · rwa [hs]
  · rwa [hs]
  · rwa [hag]
  · rwa [hcol]
  · rwa [hcol]
  · rwa [hs, hcol]
  · rwa [hrd, hcol]

/-- Taking a signal that is no end of a barrier, no command and not the agent's own vertex
list. -/
theorem pop (h : Own Q C c p w) {x : Signal} {rest : List Signal} (hsig : w.signals = x :: rest)
    (hend : x ≠ .endBarrier) (hcmd : x.isCommand = false) (hv : x ≠ .vertices c) :
    Own Q C c p { w with signals := rest } := by
  have hmem : ∀ y ∈ rest, y ∈ w.signals := fun y hy => by
    rw [hsig]
    exact List.mem_cons_of_mem _ hy
  refine ⟨h.ends, ?_, h.waits_kind, fun hw => (h.resumes hw).congr rfl rfl, h.dealt,
    fun y hy => h.placed y (hmem y hy), ?_, ?_, h.alg_again, h.collected, h.collected_sorted, ?_,
    h.ready⟩
  · simpa [hsig, List.count_cons, hend] using h.ends_count
  · have := h.commands
    rw [hsig, List.countP_cons] at this
    show rest.countP _ ≤ 1
    omega
  · have := h.end_first
    rwa [hsig, List.dropWhile_cons_of_pos (by simp [hcmd])] at this
  · simpa [hsig, List.count_cons, hv] using h.own_vertices

/-- A signal that is no end of a barrier, no command and not the agent's own vertex list,
pushed where it belongs. -/
theorem push (h : Own Q C c p w) {x : Signal} (hx : Placed Q C c p x) (hend : x ≠ .endBarrier)
    (hcmd : x.isCommand = false) (hv : x ≠ .vertices c) : Own Q C c p (w.push (some x)) := by
  refine ⟨h.ends, ?_, h.waits_kind, fun hw => (h.resumes hw).congr rfl rfl, h.dealt,
    fun y hy => ?_, ?_, ?_, h.alg_again, h.collected, h.collected_sorted, ?_, h.ready⟩
  · simpa [Standing.push, List.count_cons, hend] using h.ends_count
  · rcases List.mem_append.mp hy with hy | hy
    · exact h.placed y hy
    · rw [List.mem_singleton.mp hy]
      exact hx
  · simpa [Standing.push, hcmd] using h.commands
  · intro hmem
    simp only [Standing.push, Option.toList_some, List.dropWhile_append] at hmem
    split at hmem
    · simp [hcmd] at hmem
    · rcases List.mem_append.mp hmem with hmem | hmem
      · exact h.end_first hmem
      · exact hend (List.mem_singleton.mp hmem).symm
  · have hc : [x].count (Signal.vertices c) = 0 := by simp [hv]
    show (w.signals ++ [x]).count _ + _ ≤ _
    rw [List.count_append, hc, Nat.add_zero]
    exact h.own_vertices

/-- The counts handed out change nothing an agent that reported is asked for. -/
theorem deal (h : Own Q C c p w) (hp : p.waits = true ∧ p.ends = C.closed) :
    Own Q { C with dealt := true } c p w :=
  ⟨h.ends, h.ends_count, h.waits_kind, h.resumes, fun _ => hp, h.placed, h.commands, h.end_first,
    h.alg_again, h.collected, h.collected_sorted, h.own_vertices, h.ready⟩

/-- Taking the end of a barrier, the agent leaves the barrier it reported in for the current
one, where it reports at once (`v`) or not. -/
theorem leave (h : Own Q C c p w) {rest : List Signal} (hsig : w.signals = .endBarrier :: rest)
    {v : Bool} (hs : w'.signals = rest) (hcol : w'.collected = w.collected)
    (hrd : w'.ready = w.ready) (hres : v = false → Resumes (some w.phase) w')
    (hwk : v = true → C.kinds[C.closed]? = some w'.phase ∧ w'.phase ≠ .stageBegin ∧
      w'.phase ≠ .stageAlgProcess)
    (halg : C.kinds[C.closed]? = some .stageAlgProcess → v = false → w'.again = false) :
    Own Q C c ⟨p.ends + 1, v⟩ w' := by
  obtain ⟨hw, he⟩ := h.waits_of_end (by rw [hsig]; exact List.mem_cons_self)
  have hd : C.dealt = false := by
    cases hd : C.dealt
    · rfl
    · have := (h.dealt hd).2
      omega
  have hmem : ∀ y ∈ rest, y ∈ w.signals := fun y hy => by
    rw [hsig]
    exact List.mem_cons_of_mem _ hy
  -- an agent that reported has neither its own vertex list nor the others'
  have hvert : w.signals.count (.vertices c) + (if c ∈ w.collected then 1 else 0) = 0 := by
    have := h.own_vertices
    simp only [hw, Bool.true_eq_false, and_false, if_false] at this
    omega
  refine ⟨.inl he, ?_, fun hv => ?_, fun hv => ?_, fun hd' => absurd hd' (by simp [hd]),
    fun y hy => ?_, ?_, ?_, fun hk hn => ?_, hcol ▸ h.collected, hcol ▸ h.collected_sorted, ?_,
    fun hr => hcol ▸ h.ready (hrd ▸ hr)⟩
  · have := h.ends_count
    rw [hsig, List.count_cons_self] at this
    show w'.signals.count _ + (p.ends + 1) = _
    rw [hs]
    omega
  · show C.kinds[p.ends + 1]? = some w'.phase
    rw [he]
    exact (hwk hv).1
  · show Resumes C.kinds[p.ends]? w'
    rw [h.waits_kind hw]
    exact hres hv
  · cases v with
    | false => exact (h.placed y (hmem y (hs ▸ hy))).of_not_waits rfl
    | true =>
      obtain ⟨hk, hb, ha⟩ := hwk rfl
      have hy' := h.placed y (hmem y (hs ▸ hy))
      exact hy'.of_not_command (hy'.not_command_of_kind hk hb ha)
  · have := h.commands
    rw [hsig, List.countP_cons] at this
    rw [hs]
    omega
  · have := h.end_first
    rwa [hsig, List.dropWhile_cons_of_pos (by rfl), ← hs] at this
  · cases v with
    | false => exact halg hk rfl
    | true => exact absurd ⟨rfl, he⟩ hn
  · have hle : rest.count (.vertices c) ≤ w.signals.count (.vertices c) := by
      rw [hsig]
      exact List.count_le_count_cons
    rw [hs, hcol]
    omega

/-- An agent that has not reported has the counts of no barrier yet. -/
theorem not_dealt (h : Own Q C c p w) (hp : ¬(p.waits = true ∧ p.ends = C.closed)) :
    C.dealt = false := by
  cases hd : C.dealt
  · rfl
  · exact absurd (h.dealt hd) hp

/-- An agent holding its own vertex list, or a vertex list for it, is in the graph stage and has
not reported. -/
theorem last_of_collected (h : Own Q C c p w) (hc : c ∈ w.collected) :
    C.last p = some .stageAlgProcess ∧ p.waits = false := by
  have hown := h.own_vertices
  rw [if_pos hc] at hown
  by_contra hne
  rw [if_neg hne] at hown
  omega

/-- In the graph stage, a round may ask for another. -/
theorem reflag (h : Own Q C c p w) (hl : C.last p = some .stageAlgProcess)
    (hk : C.kinds[C.closed]? = some .stageProcessed) (v : Bool) :
    Own Q C c p { w with again := v } := by
  refine ⟨h.ends, h.ends_count, h.waits_kind, fun hw => ?_, h.dealt, h.placed, h.commands,
    h.end_first, fun hk' => ?_, h.collected, h.collected_sorted, h.own_vertices, h.ready⟩
  · have := h.resumes hw
    rw [hl] at this ⊢
    exact this
  · rw [hk] at hk'
    cases hk'

/-- Once its own vertex list is in, an agent may set up its engine. -/
theorem set_ready (h : Own Q C c p w) (hc : c ∈ w.collected) (v : Bool) :
    Own Q C c p { w with ready := v } :=
  ⟨h.ends, h.ends_count, h.waits_kind, fun hw => (h.resumes hw).congr rfl rfl, h.dealt, h.placed,
    h.commands, h.end_first, h.alg_again, h.collected, h.collected_sorted, h.own_vertices,
    fun _ => hc⟩

/-- Taking a vertex list. -/
theorem collect (h : Own Q C c p w) {b : Address} {rest : List Signal}
    (hsig : w.signals = .vertices b :: rest) :
    Own Q C c p { w with signals := rest, collected := Address.insertSorted b w.collected } := by
  have hmem : ∀ y ∈ rest, y ∈ w.signals := fun y hy => by
    rw [hsig]
    exact List.mem_cons_of_mem _ hy
  have hb : b ∈ Q.agents := h.placed (.vertices b) (by rw [hsig]; exact List.mem_cons_self)
  refine ⟨h.ends, ?_, h.waits_kind, fun hw => (h.resumes hw).congr rfl rfl, h.dealt,
    fun y hy => h.placed y (hmem y hy), ?_, ?_, h.alg_again, fun x hx => ?_,
    Address.pairwise_insertSorted h.collected_sorted, ?_,
    fun hr => Address.mem_insertSorted.mpr (.inr (h.ready hr))⟩
  · simpa [hsig, List.count_cons] using h.ends_count
  · have := h.commands
    rw [hsig, List.countP_cons] at this
    show rest.countP _ ≤ 1
    omega
  · have := h.end_first
    rwa [hsig, List.dropWhile_cons_of_pos (by rfl)] at this
  · rcases Address.mem_insertSorted.mp hx with rfl | hx
    · exact hb
    · exact h.collected x hx
  · -- the agent's own vertex list moves from its inbox into its list
    have hov := h.own_vertices
    rw [hsig] at hov
    show rest.count _ + (if c ∈ Address.insertSorted b w.collected then 1 else 0) ≤ _
    by_cases hbc : b = c
    · subst hbc
      rw [List.count_cons_self] at hov
      have hnot : b ∉ w.collected := fun hc => by
        rw [if_pos hc] at hov
        split at hov <;> omega
      rw [if_pos (Address.mem_insertSorted.mpr (.inl rfl))]
      rw [if_neg hnot] at hov
      omega
    · rw [List.count_cons_of_ne (fun h' => hbc (Signal.vertices.inj h'))] at hov
      have hc : c ∈ Address.insertSorted b w.collected ↔ c ∈ w.collected := by
        rw [Address.mem_insertSorted]
        exact or_iff_right (Ne.symm hbc)
      simp only [hc]
      exact hov

end Own

namespace AtSync

variable {C : Course} {b : Address} {p : Place} {w w' sync sync' : Standing}

/-- Of an agent, its reports and arrivals read only its flag, its counts and whether it waits
for them. -/
theorem congr_own (h : AtSync Q C b p w sync) (hag : w'.again = w.again)
    (hex : w'.expects = w.expects) (hd : w'.signals.count .dist = w.signals.count .dist) :
    AtSync Q C b p w' sync := by
  refine ⟨fun v hv => ?_, h.reports, ?_, ?_, ?_⟩
  · rw [hag]
    exact h.flags v hv
  · rw [hex, hd]
    exact h.arrivals
  · rw [hag]
    exact h.tally_again
  · rw [hag]
    exact h.undecided_again

/-- Of the synchronizer, an agent's reports and arrivals read only the signals about the agent,
whether the lists hold it and whether the flag is up. -/
theorem congr_sync (h : AtSync Q C b p w sync)
    (hsig : Signal.about b sync'.signals = Signal.about b sync.signals)
    (hr : b ∈ sync'.reported ↔ b ∈ sync.reported) (ha : b ∈ sync'.arrived ↔ b ∈ sync.arrived)
    (ht : sync.tallyAgain = true → sync'.tallyAgain = true) : AtSync Q C b p w sync' := by
  have hrep : sync'.signals.countP (Signal.isReportFrom b) =
      sync.signals.countP (Signal.isReportFrom b) := by
    rw [Signal.countP_eq_countP_about (fun _ => Signal.isReportFrom_from?), hsig,
      ← Signal.countP_eq_countP_about (fun _ => Signal.isReportFrom_from?)]
  have harr : sync'.signals.count (.arrived b) = sync.signals.count (.arrived b) := by
    have hq : ∀ x, (x == Signal.arrived b) = true → x.from? = some b := fun x hx => by
      rw [beq_iff_eq.mp hx]
      rfl
    rw [List.count_eq_countP, List.count_eq_countP, Signal.countP_eq_countP_about hq, hsig,
      ← Signal.countP_eq_countP_about hq]
  refine ⟨fun v hv => h.flags v ?_, ?_, ?_, fun hk hag hw he hrd => ht ?_,
    fun hl hag => ht (h.undecided_again hl hag)⟩
  · rw [← Signal.mem_about (b := b) rfl, ← hsig, Signal.mem_about rfl]
    exact hv
  · simp only [hrep, hr]
    exact h.reports
  · simp only [harr, ha]
    exact h.arrivals
  · exact h.tally_again hk hag hw he (hrd.imp_left hr.mp)

/-- An agent with no report in the current barrier, before the counts are handed out, may move
and change its flag, as long as the synchronizer hears of the flag while the next barrier is
undecided. -/
theorem restart (h : AtSync Q C b p w sync) (hp : ¬(p.waits = true ∧ p.ends = C.closed))
    (hd : C.dealt = false) (hex : w'.expects = w.expects)
    (hdist : w'.signals.count .dist = w.signals.count .dist) {p' : Place}
    (hu : C.kinds.length = C.closed → w'.again = true → sync.tallyAgain = true) :
    AtSync Q C b p' w' sync := by
  have h0 : sync.signals.countP (Signal.isReportFrom b) +
      (if b ∈ sync.reported then 1 else 0) = 0 := by
    have := h.reports
    rw [if_neg (show ¬(p.waits = true ∧ p.ends = C.closed ∧ C.dealt = false) from
      fun h' => hp ⟨h'.1, h'.2.1⟩)] at this
    omega
  refine ⟨fun v hv => ?_, by rw [h0]; exact Nat.zero_le _, by rw [hex, hdist]; exact h.arrivals,
    fun _ _ _ _ hr => ?_, hu⟩
  · have : 0 < sync.signals.countP (Signal.isReportFrom b) :=
      List.countP_pos_iff.mpr ⟨_, hv, by simp [Signal.isReportFrom]⟩
    omega
  · rcases hr with hr | hr
    · rw [if_pos hr] at h0
      omega
    · rw [hd] at hr
      cases hr

/-- An agent told what to expect has not been told before. -/
theorem not_expects_of_dist (h : AtSync Q C b p w sync) (hd : Signal.dist ∈ w.signals) :
    w.expects = false := by
  have := h.arrivals
  have hpos := List.count_pos_iff.mpr hd
  have hle : (if C.dealt = true then 1 else 0) ≤ 1 := by split <;> omega
  cases he : w.expects
  · rfl
  · simp only [he, if_true] at this
    omega

/-- Taking the count it was handed out, the agent waits for it. -/
theorem expect (h : AtSync Q C b p w sync) {rest : List Signal} (hsig : w.signals = .dist :: rest) :
    AtSync Q C b p { w with signals := rest, expects := true } sync := by
  have he := h.not_expects_of_dist (by rw [hsig]; exact List.mem_cons_self)
  refine ⟨h.flags, h.reports, ?_, h.tally_again, h.undecided_again⟩
  have := h.arrivals
  rw [hsig, List.count_cons_self, he] at this
  show rest.count _ + (if true = true then 1 else 0) + _ + _ ≤ _
  simp only [if_true, Bool.false_eq_true, if_false] at this ⊢
  omega

/-- An agent that arrives answers the count it was handed out, which it no longer waits for. -/
theorem arrive (h : AtSync Q C b p w sync) (hag : w'.again = w.again)
    (hcnt : w'.signals.count .dist + (if w'.expects = true then 1 else 0) + 1 =
      w.signals.count .dist + (if w.expects = true then 1 else 0)) :
    AtSync Q C b p w' (sync.push (some (.arrived b))) := by
  refine ⟨fun v hv => ?_, ?_, ?_, fun hk hg => h.tally_again hk (hag ▸ hg),
    fun hl hg => h.undecided_again hl (hag ▸ hg)⟩
  · rw [hag]
    refine h.flags v ?_
    simpa [Standing.push] using hv
  · have hrep : (sync.push (some (.arrived b))).signals.countP (Signal.isReportFrom b) =
        sync.signals.countP (Signal.isReportFrom b) := by
      simp [Standing.push, Signal.isReportFrom]
    rw [hrep]
    exact h.reports
  · have := h.arrivals
    show w'.signals.count _ + _ + (sync.signals ++ [Signal.arrived b]).count _ +
      (if b ∈ sync.arrived then 1 else 0) ≤ _
    rw [List.count_append, List.count_singleton_self]
    omega

/-- Reporting: an agent with no report in the current barrier, before the counts are handed
out, takes its place as reported and sends its report with its flag, unless the frame is lost. -/
theorem report (h : AtSync Q C b p w sync) (hp : ¬(p.waits = true ∧ p.ends = C.closed))
    (hd : C.dealt = false) (hl : C.kinds.length = C.closed + 1) (hex : w'.expects = w.expects)
    (hdist : w'.signals.count .dist = w.signals.count .dist) {o : Option Signal} {v : Bool}
    (ho : Signal.Lossy (.report b v) o) (hv : w'.again = v) {p' : Place}
    (hp' : p'.waits = true ∧ p'.ends = C.closed) :
    AtSync Q C b p' w' (sync.push o) := by
  have h0 : sync.signals.countP (Signal.isReportFrom b) +
      (if b ∈ sync.reported then 1 else 0) = 0 := by
    have := h.reports
    rw [if_neg (show ¬(p.waits = true ∧ p.ends = C.closed ∧ C.dealt = false) from
      fun h' => hp ⟨h'.1, h'.2.1⟩)] at this
    omega
  have hno : ∀ v, Signal.report b v ∉ sync.signals := fun v hv => by
    have : 0 < sync.signals.countP (Signal.isReportFrom b) :=
      List.countP_pos_iff.mpr ⟨_, hv, by simp [Signal.isReportFrom]⟩
    omega
  refine ⟨fun u hu => ?_, ?_, ?_, fun _ _ _ _ hr => ?_, fun hl' => absurd hl' (by omega)⟩
  · rcases List.mem_append.mp hu with hu | hu
    · exact absurd hu (hno u)
    · rcases ho with rfl | rfl
      · cases hu
      · cases List.mem_singleton.mp hu
        exact hv.symm
  · have hle : (sync.push o).signals.countP (Signal.isReportFrom b) ≤
        sync.signals.countP (Signal.isReportFrom b) + 1 := by
      rcases ho with rfl | rfl <;> simp [Standing.push, List.countP_append, Signal.isReportFrom]
    rw [if_pos (show p'.waits = true ∧ p'.ends = C.closed ∧ C.dealt = false from ⟨hp'.1, hp'.2, hd⟩)]
    show _ + (if b ∈ sync.reported then 1 else 0) ≤ 1
    omega
  · have := h.arrivals
    have harr : (sync.push o).signals.count (.arrived b) = sync.signals.count (.arrived b) := by
      rcases ho with rfl | rfl <;> simp [Standing.push]
    rw [harr, hex, hdist]
    exact this
  · rcases hr with hr | hr
    · rw [if_pos (show b ∈ sync.reported from hr)] at h0
      omega
    · rw [hd] at hr
      cases hr

/-- The synchronizer takes a report of `b`: it counts `b` as reported and raises its flag if the
report asks for another round. -/
theorem tally (h : AtSync Q C b p w sync) {v : Bool} {rest : List Signal}
    (hsig : sync.signals = .report b v :: rest) (hs : sync'.signals = rest)
    (hr : sync'.reported = Address.insertSorted b sync.reported)
    (ha : sync'.arrived = sync.arrived) (ht : sync'.tallyAgain = (sync.tallyAgain || v)) :
    AtSync Q C b p w sync' := by
  have hv : v = w.again := h.flags v (by rw [hsig]; exact List.mem_cons_self)
  have hrep := h.reports
  rw [hsig, List.countP_cons] at hrep
  simp only [Signal.isReportFrom, decide_true, if_true] at hrep
  -- a report in flight is the only one: the synchronizer has not counted `b` yet
  have hnot : b ∉ sync.reported := fun hm => by
    rw [if_pos hm] at hrep
    split at hrep <;> omega
  refine ⟨fun u hu => h.flags u (by rw [hsig]; exact List.mem_cons_of_mem _ (hs ▸ hu)), ?_, ?_,
    fun _ hg _ _ _ => ?_, fun hl hg => ?_⟩
  · rw [hs, hr, if_pos (Address.mem_insertSorted.mpr (.inl rfl))]
    rw [if_neg hnot] at hrep
    omega
  · have := h.arrivals
    rw [hsig, List.count_cons_of_ne (by simp)] at this
    rw [hs, ha]
    exact this
  · rw [ht, hv, hg, Bool.or_true]
  · rw [ht, h.undecided_again hl hg, Bool.true_or]

/-- The synchronizer takes an arrival of `b` and counts `b` as arrived. -/
theorem gather (h : AtSync Q C b p w sync) {rest : List Signal}
    (hsig : sync.signals = .arrived b :: rest) (hs : sync'.signals = rest)
    (hr : sync'.reported = sync.reported)
    (ha : sync'.arrived = Address.insertSorted b sync.arrived)
    (ht : sync'.tallyAgain = sync.tallyAgain) : AtSync Q C b p w sync' := by
  have harr := h.arrivals
  rw [hsig, List.count_cons_self] at harr
  -- an arrival in flight is the only one: the synchronizer has not counted `b` yet
  have hnot : b ∉ sync.arrived := fun hm => by
    rw [if_pos hm] at harr
    split_ifs at harr <;> omega
  refine ⟨fun u hu => h.flags u (by rw [hsig]; exact List.mem_cons_of_mem _ (hs ▸ hu)), ?_, ?_,
    fun hk hg hw he hrd => ?_, fun hl hg => ?_⟩
  · have := h.reports
    rw [hsig, List.countP_cons] at this
    simp only [Signal.isReportFrom, Bool.false_eq_true, if_false, Nat.add_zero] at this
    rw [hs, hr]
    exact this
  · rw [hs, ha, if_pos (Address.mem_insertSorted.mpr (.inl rfl))]
    rw [if_neg hnot] at harr
    omega
  · rw [ht]
    exact h.tally_again hk hg hw he (hr ▸ hrd)
  · rw [ht]
    exact h.undecided_again hl hg

/-- An agent whose report is taken, or is the one the synchronizer takes now, reported in the
current barrier before the counts are out, and no other report of it is in flight. -/
theorem reported (h : AtSync Q C b p w sync) {c : Address} {v : Bool} {rest : List Signal}
    (hsig : sync.signals = .report c v :: rest) (hb : b = c ∨ b ∈ sync.reported) :
    rest.countP (Signal.isReportFrom b) = 0 ∧ p.waits = true ∧ p.ends = C.closed ∧
      C.dealt = false := by
  have hrep := h.reports
  rw [hsig, List.countP_cons] at hrep
  have hpos : 1 ≤ (if Signal.isReportFrom b (.report c v) = true then 1 else 0) +
      (if b ∈ sync.reported then 1 else 0) := by
    rcases hb with rfl | hb
    · simp [Signal.isReportFrom]
    · simp [hb]
  by_cases hcond : p.waits = true ∧ p.ends = C.closed ∧ C.dealt = false
  · rw [if_pos hcond] at hrep
    exact ⟨by omega, hcond⟩
  · rw [if_neg hcond] at hrep
    omega

/-- Handing out the counts: an agent that reported is told what to expect, and the
synchronizer's lists start afresh. -/
theorem deal (h : AtSync Q C b p w sync) {c : Address} {v : Bool} {rest : List Signal}
    (hsig : sync.signals = .report c v :: rest) (hb : b = c ∨ b ∈ sync.reported)
    (hl : C.kinds.length = C.closed + 1) (hag : w'.again = w.again)
    (hex : w'.expects = w.expects) (hd : w'.signals.count .dist = w.signals.count .dist + 1)
    (hs : sync'.signals = rest ++ [.dist]) (hr : sync'.reported = []) (ha : sync'.arrived = [])
    (ht : sync'.tallyAgain = (sync.tallyAgain || v)) :
    AtSync Q { C with dealt := true } b p w' sync' := by
  obtain ⟨hn, -, -, hdl⟩ := h.reported hsig hb
  -- before the counts, nothing of the agent's arrival is anywhere
  have harr := h.arrivals
  rw [hdl, hsig, List.count_cons_of_ne (by simp)] at harr
  simp only [Bool.false_eq_true, if_false] at harr
  refine ⟨fun u hu => ?_, ?_, ?_, fun hk hg hw he _ => ?_,
    fun hl' => absurd hl' (show ¬(C.kinds.length = C.closed) by omega)⟩
  · rw [hs] at hu
    rcases List.mem_append.mp hu with hu | hu
    · have : 0 < rest.countP (Signal.isReportFrom b) :=
        List.countP_pos_iff.mpr ⟨_, hu, by simp [Signal.isReportFrom]⟩
      omega
    · simp at hu
  · rw [hs, hr]
    simp [List.countP_append, hn, Signal.isReportFrom]
  · rw [hd, hex, hs, ha]
    simp only [List.count_append, List.not_mem_nil, if_false, if_true]
    have : [Signal.dist].count (.arrived b) = 0 := by simp
    omega
  · rw [ht]
    rcases hb with rfl | hb
    · rw [h.flags v (by rw [hsig]; exact List.mem_cons_self), ← hag, hg, Bool.or_true]
    · rw [h.tally_again hk (hag ▸ hg) hw he (.inl hb), Bool.true_or]

end AtSync

/-- The course and the synchronizer's lists are all the global part reads. -/
theorem Global.congr {C : Course} {ps ps' : Place} {sync sync' : Standing}
    (h : Global Q C ps sync) (he : ps'.ends = ps.ends) (hr : sync'.reported = sync.reported)
    (ha : sync'.arrived = sync.arrived) : Global Q C ps' sync' :=
  ⟨h.kinds_head, h.kinds_follow, h.kinds_length, fun n hn hk hl => he ▸ h.decided n hn hk hl,
    hr ▸ h.reported, hr ▸ h.reported_sorted, ha ▸ h.arrived, ha ▸ h.arrived_sorted⟩

/-! ### The kinds around an agent -/

/-- The barrier an agent in the current one last left came right before it. -/
theorem Course.last_eq {C : Course} {p : Place} {k : Phase} (hl : C.last p = some k)
    (he : p.ends = C.closed) : ∃ n, C.closed = n + 1 ∧ C.kinds[n]? = some k := by
  unfold Course.last at hl
  split at hl
  · cases hl
  · rename_i n hn
    exact ⟨n, he ▸ hn, hl⟩

namespace Global

variable {C : Course} {ps p : Place} {sync : Standing} {k : Phase}

/-- After any barrier but a closing one, the kind of the current one is known, -/
theorem length_of_last (h : Global Q C ps sync) (hl : C.last p = some k) (he : p.ends = C.closed)
    (hk : k ≠ .stageClosing) : C.kinds.length = C.closed + 1 := by
  obtain ⟨n, hn, hkn⟩ := Course.last_eq hl he
  rcases h.kinds_length with h' | ⟨_, m, hm, hkm⟩
  · exact h'
  · obtain rfl : m = n := by omega
    rw [hkm] at hkn
    cases hkn
    exact absurd rfl hk

/-- The kind of the current barrier follows that of the last one, -/
theorem last_follows (h : Global Q C ps sync) (hl : C.last p = some k) (he : p.ends = C.closed)
    {q : Phase} (hq : C.kinds[C.closed]? = some q) : k.Follows q := by
  obtain ⟨n, hn, hkn⟩ := Course.last_eq hl he
  rw [hn] at hq
  exact h.kinds_follow n k q hkn hq

/-- and is the one after it. -/
theorem current_of_last (h : Global Q C ps sync) (hl : C.last p = some k) (he : p.ends = C.closed)
    {q : Phase} (hq : k.after? = some q) : C.kinds[C.closed]? = some q := by
  have hk : k ≠ .stageClosing := by
    rintro rfl
    cases hq
  have hlen := h.length_of_last hl he hk
  obtain ⟨q', hq'⟩ : ∃ q', C.kinds[C.closed]? = some q' :=
    ⟨_, List.getElem?_eq_getElem (by omega)⟩
  rw [hq', (h.last_follows hl he hq').eq_of_after? hq]

end Global

/-- An agent that has not reported, in a barrier whose kind is known, may change its flag: no
report of it is on its way, and the synchronizer's flag reads none of it. -/
theorem AtSync.again_of_not_waits {C : Course} {b : Address} {p : Place} {w w' sync : Standing}
    (h : AtSync Q C b p w sync) (hw : p.waits = false) (hk : C.kinds.length = C.closed + 1)
    (hex : w'.expects = w.expects) (hd : w'.signals.count .dist = w.signals.count .dist) :
    AtSync Q C b p w' sync := by
  refine ⟨fun v hv => ?_, h.reports, ?_, fun _ _ hw' => absurd hw' (by simp [hw]),
    fun hl => absurd hl (by omega)⟩
  · have hrep := h.reports
    simp only [hw, Bool.false_eq_true, false_and, if_false] at hrep
    have hpos : 0 < sync.signals.countP (Signal.isReportFrom b) :=
      List.countP_pos_iff.mpr ⟨_, hv, by simp [Signal.isReportFrom]⟩
    omega
  · rw [hex, hd]
    exact h.arrivals

/-! ### Starting a stage -/

namespace Own

variable {C : Course} {c : Address} {p ps : Place} {w sync : Standing}

/-- An agent with a stage command at the head of its inbox has no end of a barrier waiting. -/
theorem ends_of_command (h : Own Q C c p w) {x : Signal} {rest : List Signal}
    (hsig : w.signals = x :: rest) (hx : x.isCommand = true) : p.ends = C.closed := by
  have hend := h.end_first
  rw [hsig, List.dropWhile_cons_of_neg (by simp [hx])] at hend
  have := h.ends_count
  rw [hsig, List.count_eq_zero.mpr hend] at this
  omega

/-- An agent with the end of a barrier at the head of its inbox reported in that barrier, the
last one, in the stage of its kind, and the counts of the current one are not out. -/
theorem of_end (h : Own Q C c p w) {rest : List Signal} (hsig : w.signals = .endBarrier :: rest) :
    p.ends + 1 = C.closed ∧ C.kinds[p.ends]? = some w.phase ∧ C.dealt = false := by
  obtain ⟨hw, he⟩ := h.waits_of_end (by rw [hsig]; exact List.mem_cons_self)
  exact ⟨he, h.waits_kind hw, h.not_dealt fun h' => absurd h'.2 (by omega)⟩

/-- Taking a stage command, the agent starts the stage and reports. -/
theorem command (h : Own Q C c p w) (hG : Global Q C ps sync) {x : Signal} {k : Phase}
    {rest : List Signal} (hsig : w.signals = x :: rest) (hx : x.stage? = some k) :
    Own Q C c { p with waits := true } { w with signals := rest, phase := k, again := false } := by
  obtain ⟨hk, hp⟩ := (h.placed x (by rw [hsig]; exact List.mem_cons_self)).command hx
  have hcmd : x.isCommand = true := by cases x <;> simp_all [Signal.stage?, Signal.isCommand]
  have he := h.ends_of_command hsig hcmd
  -- nothing else waiting is a command or the end of a barrier
  have hrest : rest.countP Signal.isCommand = 0 := by
    have := h.commands
    rw [hsig, List.countP_cons, if_pos hcmd] at this
    omega
  have hend : Signal.endBarrier ∉ rest := fun hm => by
    have := h.end_first
    rw [hsig, List.dropWhile_cons_of_neg (by simp [hcmd])] at this
    exact this (List.mem_cons_of_mem _ hm)
  -- the barrier before a stage command is a closing one, so no vertex list waits
  have hlast : C.last p ≠ some .stageAlgProcess := fun hl => by
    have := hG.last_follows hl he hk
    cases this
    cases x <;> simp_all [Signal.stage?]
  refine ⟨.inl he, ?_, fun _ => he ▸ hk, fun hw => absurd hw (by simp), fun _ => ⟨rfl, he⟩,
    fun y hy => ?_, by simp [hrest], fun hm => hend ((List.dropWhile_suffix _).subset hm),
    fun _ hn => absurd ⟨rfl, he⟩ hn, h.collected, h.collected_sorted, ?_, h.ready⟩
  · show rest.count _ + p.ends = _
    rw [List.count_eq_zero.mpr hend]
    omega
  · exact (h.placed y (by rw [hsig]; exact List.mem_cons_of_mem _ hy)).of_not_command
      (by simpa using List.countP_eq_zero.mp hrest y hy)
  · have hov := h.own_vertices
    rw [if_neg (show ¬(C.last p = some .stageAlgProcess ∧ p.waits = false) from
      fun h' => hlast h'.1), hsig] at hov
    have hle : rest.count (.vertices c) ≤ (x :: rest).count (.vertices c) :=
      List.count_le_count_cons
    show rest.count _ + (if c ∈ w.collected then 1 else 0) ≤ _
    omega

/-- At the end of the graph stage, the agent drops its engine and vertex lists and reports. -/
theorem finish (h : Own Q C c p w) (hG : Global Q C ps sync) (hr : w.ready = true) :
    Own Q C c { p with waits := true }
      { w with phase := .stageProcessed, ready := false, collected := [] } := by
  obtain ⟨hlast, hw⟩ := h.ready_last hr
  have he := h.ends_of_not_waits hw
  have hk := hG.current_of_last hlast he rfl
  -- its own vertex list is in, so none waits
  have hov := h.own_vertices
  rw [if_pos (h.ready hr), if_pos ⟨hlast, hw⟩] at hov
  refine ⟨.inl he, h.ends_count, fun _ => he ▸ hk, fun hw' => absurd hw' (by simp),
    fun _ => ⟨rfl, he⟩, fun y hy => ?_, h.commands, h.end_first,
    fun _ hn => absurd ⟨rfl, he⟩ hn, nofun, .nil, ?_, nofun⟩
  · have hy' := h.placed y hy
    exact hy'.of_not_command (hy'.not_command_of_kind hk nofun nofun)
  · show w.signals.count _ + (if c ∈ ([] : List Address) then 1 else 0) ≤ _
    simp only [List.not_mem_nil, if_false]
    omega

end Own

/-! ### Steps that change one agent -/

theorem View.post_apply {W : View} {b : Address} {o : Option Signal} (c : Address) :
    W.post b o c = if c = b then (W c).push o else W c := by
  rw [View.post, View.set_apply]
  split_ifs with h
  · subst h
    rfl
  · rfl

@[simp] theorem View.post_none {W : View} {b : Address} : W.post b none = W := by
  funext c
  rw [View.post_apply]
  split_ifs
  · exact Standing.push_none _
  · rfl

/-- Frames that carry no signal change no standing. -/
@[simp] theorem View.postAll_none {W : View} (l : List Address) : W.postAll l (fun _ => none) = W := by
  induction l generalizing W with
  | nil => rfl
  | cons b rest ih =>
    show (W.post b none).postAll rest _ = W
    rw [View.post_none, ih]

/-- A change that leaves an agent standing where it stood changes nothing. -/
theorem View.set_of_eq {W : View} {a : Address} {f : Standing → Standing} (h : f (W a) = W a) :
    W.set a f = W := by
  rw [View.set, h]
  exact Function.update_eq_self a W

theorem View.postAll_of_mem (hQ : Q.Sound) {W : View} {o : Address → Option Signal} {c : Address}
    (hc : c ∈ Q.agents) : W.postAll Q.agents o c = (W c).push (o c) := by
  rw [View.postAll_apply c hQ.nodup, if_pos hc]

/-- What an agent sends the synchronizer is about itself. -/
def Sends (a : Address) (o : Option Signal) : Prop := ∀ y ∈ o, y.from? = some a

namespace Sends

variable {a : Address} {o : Option Signal}

theorem not_dist (h : Sends a o) : ∀ y ∈ o, y ≠ .dist := fun y hy => by
  have := h y hy
  cases y <;> simp_all [Signal.from?]

theorem about_ne (h : Sends a o) {b : Address} (hb : b ≠ a) : Signal.about b o.toList = [] := by
  cases o with
  | none => rfl
  | some y =>
    refine Signal.about_of_ne ?_
    rw [h y rfl]
    exact fun h' => hb (Option.some.inj h').symm

/-- What the synchronizer is sent waits where it should. -/
theorem own (h : Sends a o) (ha : a ∈ Q.agents) {C : Course} {p : Place} {w : Standing}
    (hw : Own Q C Q.sync p w) : Own Q C Q.sync p (w.push o) := by
  cases o with
  | none => simpa using hw
  | some y =>
    have hy := h y rfl
    exact hw.push (Placed.of_from? hy ha) (by cases y <;> simp_all [Signal.from?])
      (by cases y <;> simp_all [Signal.from?, Signal.isCommand])
      (by cases y <;> simp_all [Signal.from?])

/-- An agent's reports and arrivals do not read what the synchronizer is sent as an agent, -/
theorem atSync_own (h : Sends a o) {C : Course} {b : Address} {p : Place} {w sync : Standing}
    (hw : AtSync Q C b p w sync) : AtSync Q C b p (w.push o) sync := by
  refine hw.congr_own rfl rfl ?_
  cases o with
  | none => simp
  | some y => simp [Standing.push, List.count_append, h.not_dist y rfl]

/-- nor, at the synchronizer, what is about another agent. -/
theorem atSync_ne (h : Sends a o) {C : Course} {b : Address} (hb : b ≠ a) {p : Place}
    {w sync sync' : Standing} (hw : AtSync Q C b p w sync)
    (hsig : Signal.about b sync'.signals = Signal.about b sync.signals)
    (hr : sync'.reported = sync.reported) (har : sync'.arrived = sync.arrived)
    (ht : sync'.tallyAgain = sync.tallyAgain) : AtSync Q C b p w (sync'.push o) :=
  hw.congr_sync (by simp [Standing.push, hsig, h.about_ne hb]) (by rw [Standing.push, hr])
    (by rw [Standing.push, har]) (by rw [Standing.push, ht]; exact id)

theorem arrived (a : Address) : Sends a (some (.arrived a)) := by
  rintro y ⟨⟩
  rfl

theorem of_lossy {v : Bool} (h : Signal.Lossy (.report a v) o) : Sends a o := by
  rcases h with rfl | rfl
  · nofun
  · rintro y ⟨⟩
    rfl

end Sends

namespace Place

variable {p : Place} {o : Option Signal} {act : Act}

theorem after_of_ne (ho : o ≠ some .endBarrier) (hact : act ≠ .reports) : p.after o act = p := by
  cases act <;> simp_all [Place.after]

theorem after_reports (ho : o ≠ some .endBarrier) :
    p.after o .reports = { p with waits := true } := by
  simp [Place.after, ho]

theorem after_end (hact : act ≠ .reports) :
    p.after (some .endBarrier) act = ⟨p.ends + 1, false⟩ := by
  cases act <;> simp_all [Place.after]

theorem after_end_reports : p.after (some .endBarrier) .reports = ⟨p.ends + 1, true⟩ := by
  simp [Place.after]

end Place

/-- A report made without the end of a barrier makes the agent wait. -/
theorem Ghost.after_reports {g : Ghost} {a : Address} {o : Option Signal}
    (ho : o ≠ some .endBarrier) :
    g.after a o .reports = ⟨g.course, Function.update g.place a { g.place a with waits := true }⟩ := by
  simp [Ghost.after, Course.after, Place.after_reports ho]

/-- The end of a barrier moves the agent on; it waits again if it reports at once. -/
theorem Ghost.after_end_quiet {g : Ghost} {a : Address} :
    g.after a (some .endBarrier) .quiet =
      ⟨g.course, Function.update g.place a ⟨(g.place a).ends + 1, false⟩⟩ := by
  simp [Ghost.after, Course.after, Place.after]

theorem Ghost.after_end_reports {g : Ghost} {a : Address} :
    g.after a (some .endBarrier) .reports =
      ⟨g.course, Function.update g.place a ⟨(g.place a).ends + 1, true⟩⟩ := by
  simp [Ghost.after, Course.after, Place.after]

/-- Handing out the counts moves no agent. -/
theorem Ghost.after_deals {g : Ghost} {a : Address} {o : Option Signal}
    (ho : o ≠ some .endBarrier) : g.after a o .deals = ⟨{ g.course with dealt := true }, g.place⟩ := by
  simp [Ghost.after, Course.after, Place.after_of_ne ho]

/-- A step that neither reports nor ends a barrier leaves the ghost as it was. -/
theorem Ghost.after_quiet {g : Ghost} {a : Address} {o : Option Signal}
    (ho : o ≠ some .endBarrier) : g.after a o .quiet = g := by
  simp [Ghost.after, Course.after, Place.after_of_ne ho]

namespace Inv

variable {g : Ghost} {W : View} {a : Address} {f : Standing → Standing}

/-- A step that changes only the agent taking it and sends the synchronizer at most a report or
an arrival of its own. It takes a frame about no report or arrival and keeps the synchronizer's
lists and flag: the invariant holds after it once it holds of the agent, at its new place,
against the synchronizer with what it was sent. -/
theorem set_post (hI : Inv Q g W) (ha : a ∈ Q.agents) {x : Option Signal} {rest : List Signal}
    (hsig : (W a).signals = x.toList ++ rest) (hx : ∀ y ∈ x, y.from? = none)
    (hs : (f (W a)).signals = rest) (hr : (f (W a)).reported = (W a).reported)
    (har : (f (W a)).arrived = (W a).arrived) (ht : (f (W a)).tallyAgain = (W a).tallyAgain)
    {p : Place} (hdec : a = Q.sync → ∀ n, g.course.closed = n + 1 →
      g.course.kinds[n]? = some .stageClosing → g.course.kinds.length = g.course.closed + 1 →
      p.ends = g.course.closed)
    {o : Option Signal} (ho : Sends a o) (hown : Own Q g.course a p (f (W a)))
    (hat : AtSync Q g.course a p (f (W a)) ((W Q.sync).push o)) :
    Inv Q ⟨g.course, Function.update g.place a p⟩ ((W.set a f).post Q.sync o) := by
  -- of the synchronizer, the step leaves every list, the flag and every signal about an agent
  have hsync : ∀ b, Signal.about b (W.set a f Q.sync).signals = Signal.about b (W Q.sync).signals
      := fun b => by
    rw [View.set_apply]
    split_ifs with hsa
    · subst hsa
      rw [hs, hsig, Signal.about_append]
      cases x with
      | none => rfl
      | some y => simp [Signal.about, hx y rfl]
    · rfl
  have hlists : (W.set a f Q.sync).reported = (W Q.sync).reported ∧
      (W.set a f Q.sync).arrived = (W Q.sync).arrived ∧
      (W.set a f Q.sync).tallyAgain = (W Q.sync).tallyAgain := by
    rw [View.set_apply]
    split_ifs with hsa
    · subst hsa
      exact ⟨hr, har, ht⟩
    · exact ⟨rfl, rfl, rfl⟩
  refine ⟨?_, fun c hc => ?_, fun b hb => ?_⟩
  · show Global Q g.course (Function.update g.place a p Q.sync) ((W.set a f).post Q.sync o Q.sync)
    rw [View.post_self]
    by_cases hsa : Q.sync = a
    · subst hsa
      have h : Global Q g.course (g.place Q.sync) (W.set Q.sync f Q.sync) :=
        hI.global.congr rfl hlists.1 hlists.2.1
      simp only [Function.update_self]
      exact ⟨h.kinds_head, h.kinds_follow, h.kinds_length, hdec rfl, h.reported,
        h.reported_sorted, h.arrived, h.arrived_sorted⟩
    · rw [Function.update_of_ne hsa]
      exact hI.global.congr rfl hlists.1 hlists.2.1
  · show Own Q g.course c (Function.update g.place a p c) ((W.set a f).post Q.sync o c)
    have h : Own Q g.course c (Function.update g.place a p c) (W.set a f c) := by
      rcases eq_or_ne c a with rfl | hca
      · rw [Function.update_self, View.set_self]
        exact hown
      · rw [Function.update_of_ne hca, View.set_ne _ hca]
        exact hI.own c hc
    rw [View.post_apply]
    split_ifs with hcs
    · subst hcs
      exact ho.own ha h
    · exact h
  · show AtSync Q g.course b (Function.update g.place a p b) ((W.set a f).post Q.sync o b)
      ((W.set a f).post Q.sync o Q.sync)
    have h : AtSync Q g.course b (Function.update g.place a p b) (W.set a f b)
        ((W.set a f Q.sync).push o) := by
      rcases eq_or_ne b a with rfl | hba
      · rw [Function.update_self, View.set_self]
        refine hat.congr_sync ?_ (by rw [Standing.push, Standing.push, hlists.1])
          (by rw [Standing.push, Standing.push, hlists.2.1])
          (by rw [Standing.push, Standing.push, hlists.2.2]; exact id)
        simp only [Standing.push, Signal.about_append, hsync]
      · rw [Function.update_of_ne hba, View.set_ne _ hba]
        exact ho.atSync_ne hba (hI.atSync b hb) (hsync b) hlists.1 hlists.2.1 hlists.2.2
    rw [View.post_self, View.post_apply]
    split_ifs with hbs
    · exact ho.atSync_own h
    · exact h

/-- Of the synchronizer, the global part reads its place only once the next barrier is decided. -/
theorem decided_self (hI : Inv Q g W) : a = Q.sync → ∀ n, g.course.closed = n + 1 →
    g.course.kinds[n]? = some .stageClosing → g.course.kinds.length = g.course.closed + 1 →
    (g.place a).ends = g.course.closed := by
  rintro rfl
  exact hI.global.decided

/-- A step that changes only the agent taking it, in place, and sends nothing. -/
theorem set_quiet (hI : Inv Q g W) (ha : a ∈ Q.agents) {x : Option Signal} {rest : List Signal}
    (hsig : (W a).signals = x.toList ++ rest) (hx : ∀ y ∈ x, y.from? = none)
    (hs : (f (W a)).signals = rest) (hr : (f (W a)).reported = (W a).reported)
    (har : (f (W a)).arrived = (W a).arrived) (ht : (f (W a)).tallyAgain = (W a).tallyAgain)
    (hown : Own Q g.course a (g.place a) (f (W a)))
    (hat : AtSync Q g.course a (g.place a) (f (W a)) (W Q.sync)) :
    Inv Q g (W.set a f) := by
  have h := hI.set_post ha hsig hx hs hr har ht hI.decided_self (o := none) nofun hown
    (by simpa using hat)
  rw [View.post_none, Function.update_eq_self] at h
  exact h

/-! ### Each move -/

variable {rest : List Signal}

/-- A frame that changes nothing the protocol reads. -/
theorem quiet (hI : Inv Q g W) (ha : a ∈ Q.agents) (hsig : (W a).signals = rest) :
    Inv Q (g.after a none .quiet) (W.set a fun w => { w with signals := rest }) := by
  subst hsig
  rw [Ghost.after_quiet (o := none) nofun]
  exact hI.set_quiet ha (x := none) rfl nofun rfl rfl rfl rfl (hI.own a ha) (hI.atSync a ha)

/-- A round report reaching a set-up engine: the round may ask for another. -/
theorem compute (hI : Inv Q g W) (ha : a ∈ Q.agents) (hsig : (W a).signals = rest)
    (h : (W a).ready = true) :
    Inv Q (g.after a none .quiet)
      ((W.set a fun w => { w with signals := rest }).set a fun w => { w with again := true }) := by
  subst hsig
  have hown := hI.own a ha
  obtain ⟨hlast, hw⟩ := hown.ready_last h
  have he := hown.ends_of_not_waits hw
  have hp : ¬((g.place a).waits = true ∧ (g.place a).ends = g.course.closed) := by simp [hw]
  have hlen := hI.global.length_of_last hlast he nofun
  rw [View.set_set, Ghost.after_quiet (o := none) nofun]
  refine hI.set_quiet ha (x := none) rfl nofun rfl rfl rfl rfl ?_ ?_
  · exact hown.reflag hlast (hI.global.current_of_last hlast he rfl) true
  · exact (hI.atSync a ha).restart hp (hown.not_dealt hp) (by rfl) (by rfl)
      fun hl => absurd hl (by omega)

/-- Taking the count it was handed out, the agent waits for it. -/
theorem expect (hI : Inv Q g W) (ha : a ∈ Q.agents) (hsig : (W a).signals = .dist :: rest) :
    Inv Q (g.after a (some .dist) .quiet)
      ((W.set a fun w => { w with signals := rest }).set a fun w => { w with expects := true }) := by
  rw [View.set_set, Ghost.after_quiet (o := some .dist) nofun]
  refine hI.set_quiet ha (x := some .dist) hsig (fun _ h => by cases h; rfl) rfl rfl rfl rfl ?_ ?_
  · exact ((hI.own a ha).pop hsig nofun rfl nofun).congr rfl rfl rfl rfl rfl
  · exact (hI.atSync a ha).expect hsig

/-- Taking a vertex list that is not the last. -/
theorem collect (hI : Inv Q g W) (ha : a ∈ Q.agents) {b : Address}
    (hsig : (W a).signals = .vertices b :: rest) :
    Inv Q (g.after a (some (.vertices b)) .quiet)
      ((W.set a fun w => { w with signals := rest }).set a fun w =>
        { w with collected := Address.insertSorted b w.collected }) := by
  rw [View.set_set, Ghost.after_quiet (o := some (.vertices b)) nofun]
  refine hI.set_quiet ha (x := some (.vertices b)) hsig (fun _ h => by cases h; rfl) rfl rfl rfl rfl
    ?_ ?_
  · exact (hI.own a ha).collect hsig
  · refine (hI.atSync a ha).congr_own rfl rfl ?_
    show rest.count _ = _
    simp [hsig]

/-- Taking the last vertex list: the engine is set up and runs its first round, which may ask
for another. -/
theorem collectAll (hI : Inv Q g W) (ha : a ∈ Q.agents) {b : Address}
    (hsig : (W a).signals = .vertices b :: rest)
    (h : (Address.insertSorted b (W a).collected).length = Q.agents.length) (r v : Bool) :
    Inv Q (g.after a (some (.vertices b)) .quiet)
      ((W.set a fun w => { w with signals := rest }).set a fun w =>
        { w with collected := Address.insertSorted b w.collected, ready := w.ready || r,
                 again := w.again || v }) := by
  have hown := (hI.own a ha).collect hsig
  -- with every vertex list in, the agent's own is too
  have hc : a ∈ Address.insertSorted b (W a).collected :=
    mem_of_length_le hown.collected hown.collected_sorted (Nat.le_of_eq h.symm) ha
  obtain ⟨hlast, hw⟩ := hown.last_of_collected hc
  have he := hown.ends_of_not_waits hw
  have hp : ¬((g.place a).waits = true ∧ (g.place a).ends = g.course.closed) := by simp [hw]
  have hlen := hI.global.length_of_last hlast he nofun
  rw [View.set_set, Ghost.after_quiet (o := some (.vertices b)) nofun]
  refine hI.set_quiet ha (x := some (.vertices b)) hsig (fun _ h => by cases h; rfl) rfl rfl rfl rfl
    ?_ ?_
  · exact (hown.set_ready hc _).reflag hlast (hI.global.current_of_last hlast he rfl) _
  · refine (hI.atSync a ha).restart hp (hown.not_dealt hp) (by rfl) ?_
      fun hl => absurd hl (by omega)
    show rest.count _ = _
    simp [hsig]

/-- The last write an agent was told to expect: it arrives. -/
theorem arrive (hI : Inv Q g W) (ha : a ∈ Q.agents) (hsig : (W a).signals = rest)
    (h : (W a).expects = true) :
    Inv Q (g.after a none .quiet)
      (((W.set a fun w => { w with signals := rest }).set a fun w =>
        { w with expects := false }).post Q.sync (some (.arrived a))) := by
  subst hsig
  have hI' := hI.set_post ha (x := none) (f := fun w => { w with expects := false }) rfl nofun
    rfl rfl rfl rfl hI.decided_self (Sends.arrived a) ?_ ?_
  · rw [Function.update_eq_self] at hI'
    rw [View.set_set, Ghost.after_quiet (o := none) nofun]
    exact hI'
  · exact (hI.own a ha).congr rfl rfl rfl rfl rfl
  · exact (hI.atSync a ha).arrive rfl (by simp [h])

/-- Told what to expect when it has it all, the agent arrives at once. -/
theorem expectArrive (hI : Inv Q g W) (ha : a ∈ Q.agents) (hsig : (W a).signals = .dist :: rest) :
    Inv Q (g.after a (some .dist) .quiet)
      (((W.set a fun w => { w with signals := rest }).set a fun w =>
        { w with expects := false }).post Q.sync (some (.arrived a))) := by
  have hex := (hI.atSync a ha).not_expects_of_dist (by rw [hsig]; exact List.mem_cons_self)
  have hI' := hI.set_post ha (x := some .dist)
    (f := fun w => { w with signals := rest, expects := false }) hsig (fun _ h => by cases h; rfl)
    rfl rfl rfl rfl hI.decided_self (Sends.arrived a) ?_ ?_
  · rw [Function.update_eq_self] at hI'
    rw [View.set_set, Ghost.after_quiet (o := some .dist) nofun]
    exact hI'
  · exact ((hI.own a ha).pop hsig nofun rfl nofun).congr rfl rfl rfl rfl rfl
  · refine (hI.atSync a ha).arrive rfl ?_
    rw [hsig, List.count_cons_self, hex]
    rfl

/-- A stage command: the agent starts the stage and reports that it asks for no other round. -/
theorem command (hI : Inv Q g W) (ha : a ∈ Q.agents) {x : Signal} {k : Phase}
    (hx : x.stage? = some k) (hsig : (W a).signals = x :: rest) {o : Option Signal}
    (ho : Signal.Lossy (.report a false) o) :
    Inv Q (g.after a (some x) .reports)
      (((W.set a fun w => { w with signals := rest }).set a fun w =>
        { w with phase := k, again := false }).post Q.sync o) := by
  have hown := hI.own a ha
  obtain ⟨hk, hp⟩ := (hown.placed x (by rw [hsig]; exact List.mem_cons_self)).command hx
  have hcmd : x.isCommand = true := by cases x <;> simp_all [Signal.stage?, Signal.isCommand]
  have he := hown.ends_of_command hsig hcmd
  have hlen : g.course.kinds.length = g.course.closed + 1 := by
    have := (List.getElem?_eq_some_iff.mp hk).1
    rcases hI.global.kinds_length with h' | h' <;> omega
  have hnd : x ≠ .dist := by cases x <;> simp_all [Signal.isCommand]
  rw [View.set_set, Ghost.after_reports (by cases x <;> simp_all [Signal.isCommand])]
  refine hI.set_post ha (x := some x) (f := fun w => { w with signals := rest, phase := k, again := false })
    (p := { g.place a with waits := true }) hsig
    (fun _ h => by cases h; cases x <;> simp_all [Signal.isCommand, Signal.from?])
    rfl rfl rfl rfl (fun _ _ _ _ _ => he) (Sends.of_lossy ho) (hown.command hI.global hsig hx) ?_
  refine (hI.atSync a ha).report hp (hown.not_dealt hp) hlen (by rfl) ?_ ho (by rfl)
    (by exact ⟨rfl, he⟩)
  show rest.count _ = _
  rw [hsig, List.count_cons_of_ne hnd]

/-- At the end of the graph stage, the agent reports, asking for another round if a round
wrote. -/
theorem finish (hI : Inv Q g W) (ha : a ∈ Q.agents) (hsig : (W a).signals = rest)
    (h : (W a).ready = true) {o : Option Signal} (ho : Signal.Lossy (.report a (W a).again) o) :
    Inv Q (g.after a none .reports)
      (((W.set a fun w => { w with signals := rest }).set a fun w =>
        { w with phase := .stageProcessed, ready := false, collected := [] }).post Q.sync o) := by
  subst hsig
  have hown := hI.own a ha
  obtain ⟨hlast, hw⟩ := hown.ready_last h
  have he := hown.ends_of_not_waits hw
  have hp : ¬((g.place a).waits = true ∧ (g.place a).ends = g.course.closed) := by simp [hw]
  rw [View.set_set, Ghost.after_reports (o := none) nofun]
  refine hI.set_post ha (x := none)
    (f := fun w => { w with phase := .stageProcessed, ready := false, collected := [] })
    (p := { g.place a with waits := true }) rfl nofun rfl rfl rfl rfl (fun _ _ _ _ _ => he)
    (Sends.of_lossy ho) (hown.finish hI.global h) ?_
  exact (hI.atSync a ha).report hp (hown.not_dealt hp) (hI.global.length_of_last hlast he nofun)
    (by rfl) (by rfl) ho (by rfl) (by exact ⟨rfl, he⟩)

/-! ### The end of a barrier -/

/-- An agent taking the end of a barrier, which sends the synchronizer at most its report. -/
theorem leave (hI : Inv Q g W) (ha : a ∈ Q.agents) (hsig : (W a).signals = .endBarrier :: rest)
    (hs : (f (W a)).signals = rest) (hr : (f (W a)).reported = (W a).reported)
    (har : (f (W a)).arrived = (W a).arrived) (ht : (f (W a)).tallyAgain = (W a).tallyAgain)
    (hcol : (f (W a)).collected = (W a).collected) (hrd : (f (W a)).ready = (W a).ready)
    {v : Bool} {o : Option Signal} (ho : Sends a o)
    (hres : v = false → Resumes (some (W a).phase) (f (W a)))
    (hwk : v = true → g.course.kinds[g.course.closed]? = some (f (W a)).phase ∧
      (f (W a)).phase ≠ .stageBegin ∧ (f (W a)).phase ≠ .stageAlgProcess)
    (halg : g.course.kinds[g.course.closed]? = some .stageAlgProcess → v = false →
      (f (W a)).again = false)
    (hat : AtSync Q g.course a ⟨(g.place a).ends + 1, v⟩ (f (W a)) ((W Q.sync).push o)) :
    Inv Q ⟨g.course, Function.update g.place a ⟨(g.place a).ends + 1, v⟩⟩
      ((W.set a f).post Q.sync o) :=
  hI.set_post ha (x := some .endBarrier) hsig (fun _ h => by cases h; rfl) hs hr har ht
    (fun _ _ _ _ _ => ((hI.own a ha).of_end hsig).1) ho
    ((hI.own a ha).leave hsig hs hcol hrd hres hwk halg) hat

/-- The end of a barrier, taken by an idle agent, is impossible: every barrier has a stage. -/
theorem phase_ne_preload_of_end (hI : Inv Q g W) (ha : a ∈ Q.agents)
    (hsig : (W a).signals = .endBarrier :: rest) : (W a).phase ≠ .preload :=
  hI.global.kind_ne_preload ((hI.own a ha).of_end hsig).2.1

/-- The sweep of a single-entry round, stopped once the agent knows whether it wrote. -/
theorem sweep (hI : Inv Q g W) (ha : a ∈ Q.agents) (hsig : (W a).signals = .endBarrier :: rest)
    (h : (W a).phase = .stageBegin) (v : Bool) :
    Inv Q (g.after a (some .endBarrier) .quiet)
      ((W.set a fun w => { w with signals := rest }).set a fun w => { w with again := v }) := by
  obtain ⟨he, hk, hd⟩ := (hI.own a ha).of_end hsig
  rw [h] at hk
  have hlast : g.course.last ⟨(g.place a).ends + 1, false⟩ = some .stageBegin := hk
  have hcur := hI.global.current_of_last hlast he rfl
  have hlen := hI.global.length_of_last hlast he nofun
  have hI' := hI.leave ha (f := fun w => { w with signals := rest, again := v }) (v := false)
    (o := none) hsig rfl rfl rfl rfl rfl rfl nofun (fun _ => by rw [h]; exact rfl) nofun
    (fun hk' => by rw [hcur] at hk'; cases hk') ?_
  · rw [View.post_none] at hI'
    rw [View.set_set, Ghost.after_end_quiet]
    exact hI'
  · refine ((hI.atSync a ha).restart (fun h' => absurd h'.2 (by omega)) hd (by rfl) ?_
      fun hl => absurd hl (by omega)).congr_sync (by simp) Iff.rfl Iff.rfl id
    show rest.count _ = _
    simp [hsig]

/-- The sweep of a single-entry round, ending in the report. -/
theorem swept (hI : Inv Q g W) (ha : a ∈ Q.agents) (hsig : (W a).signals = .endBarrier :: rest)
    (h : (W a).phase = .stageBegin) (v : Bool) {o : Option Signal}
    (ho : Signal.Lossy (.report a v) o) :
    Inv Q (g.after a (some .endBarrier) .reports)
      (((W.set a fun w => { w with signals := rest }).set a fun w =>
        { w with again := v, phase := .stageProcessed }).post Q.sync o) := by
  obtain ⟨he, hk, hd⟩ := (hI.own a ha).of_end hsig
  rw [h] at hk
  have hlast : g.course.last ⟨(g.place a).ends + 1, true⟩ = some .stageBegin := hk
  have hcur := hI.global.current_of_last hlast he rfl
  have hlen := hI.global.length_of_last hlast he nofun
  rw [View.set_set, Ghost.after_end_reports]
  refine hI.leave ha (f := fun w => { w with signals := rest, again := v, phase := .stageProcessed })
    (v := true) hsig rfl rfl rfl rfl rfl rfl (Sends.of_lossy ho) nofun
    (fun _ => ⟨hcur, nofun, nofun⟩) (fun _ => nofun) ?_
  refine (hI.atSync a ha).report (fun h' => absurd h'.2 (by omega)) hd hlen (by rfl) ?_ ho
    (by rfl) (by exact ⟨rfl, he⟩)
  show rest.count _ = _
  simp [hsig]

/-- The closing stage, stopped on its way. -/
theorem close (hI : Inv Q g W) (ha : a ∈ Q.agents) (hsig : (W a).signals = .endBarrier :: rest)
    (h : (W a).phase = .stageProcessed) :
    Inv Q (g.after a (some .endBarrier) .quiet)
      ((W.set a fun w => { w with signals := rest }).set a fun w =>
        { w with phase := .stageClosing }) := by
  obtain ⟨he, hk, hd⟩ := (hI.own a ha).of_end hsig
  rw [h] at hk
  have hlast : g.course.last ⟨(g.place a).ends + 1, false⟩ = some .stageProcessed := hk
  have hcur := hI.global.current_of_last hlast he rfl
  have hlen := hI.global.length_of_last hlast he nofun
  have hI' := hI.leave ha (f := fun w => { w with signals := rest, phase := .stageClosing })
    (v := false) (o := none) hsig rfl rfl rfl rfl rfl rfl nofun (fun _ => by rw [h]; exact rfl)
    nofun (fun hk' => by rw [hcur] at hk'; cases hk') ?_
  · rw [View.post_none] at hI'
    rw [View.set_set, Ghost.after_end_quiet]
    exact hI'
  · refine ((hI.atSync a ha).restart (fun h' => absurd h'.2 (by omega)) hd (by rfl) ?_
      fun hl => absurd hl (by omega)).congr_sync (by simp) Iff.rfl Iff.rfl id
    show rest.count _ = _
    simp [hsig]

/-- The closing stage, ending in the report. -/
theorem closed (hI : Inv Q g W) (ha : a ∈ Q.agents) (hsig : (W a).signals = .endBarrier :: rest)
    (h : (W a).phase = .stageProcessed) {o : Option Signal}
    (ho : Signal.Lossy (.report a (W a).again) o) :
    Inv Q (g.after a (some .endBarrier) .reports)
      (((W.set a fun w => { w with signals := rest }).set a fun w =>
        { w with phase := .stageClosing }).post Q.sync o) := by
  obtain ⟨he, hk, hd⟩ := (hI.own a ha).of_end hsig
  rw [h] at hk
  have hlast : g.course.last ⟨(g.place a).ends + 1, true⟩ = some .stageProcessed := hk
  have hcur := hI.global.current_of_last hlast he rfl
  have hlen := hI.global.length_of_last hlast he nofun
  rw [View.set_set, Ghost.after_end_reports]
  refine hI.leave ha (f := fun w => { w with signals := rest, phase := .stageClosing })
    (v := true) hsig rfl rfl rfl rfl rfl rfl (Sends.of_lossy ho) nofun
    (fun _ => ⟨hcur, nofun, nofun⟩) (fun _ => nofun) ?_
  refine (hI.atSync a ha).report (fun h' => absurd h'.2 (by omega)) hd hlen (by rfl) ?_ ho
    (by rfl) (by exact ⟨rfl, he⟩)
  show rest.count _ = _
  simp [hsig]

/-- After closing, an agent other than the synchronizer goes on if it wrote and goes idle if
not. -/
theorem reopen (hI : Inv Q g W) (ha : a ∈ Q.agents) (hsig : (W a).signals = .endBarrier :: rest)
    (h : (W a).phase = .stageClosing) :
    Inv Q (g.after a (some .endBarrier) .quiet)
      ((W.set a fun w => { w with signals := rest }).set a fun w =>
        { w with phase := if w.again then .stageBegin else .preload }) := by
  obtain ⟨he, hk, hd⟩ := (hI.own a ha).of_end hsig
  have hp : ¬((g.place a).waits = true ∧ (g.place a).ends = g.course.closed) :=
    fun h' => absurd h'.2 (by omega)
  have hI' := hI.leave ha
    (f := fun w => { w with signals := rest, phase := if w.again then .stageBegin else .preload })
    (v := false) (o := none) hsig rfl rfl rfl rfl rfl rfl nofun (fun _ => ?_) nofun
    (fun hk' _ => (hI.own a ha).alg_again hk' hp) ?_
  · rw [View.post_none] at hI'
    rw [View.set_set, Ghost.after_end_quiet]
    exact hI'
  · -- it resumes as a closing barrier leaves it: idle unless it wrote
    rw [h]
    cases (W a).again <;> simp [Resumes]
  · refine ((hI.atSync a ha).restart hp hd (by rfl) ?_
      (by exact (hI.atSync a ha).undecided_again)).congr_sync (by simp) Iff.rfl Iff.rfl id
    show rest.count _ = _
    simp [hsig]

/-! ### The synchronizer's tallies -/

/-- The synchronizer takes a report or an arrival of `b` and updates its lists and flag: the
invariant holds after it once the global part and the part for `b` do. -/
theorem take (hI : Inv Q g W) (ha : a ∈ Q.agents) {y : Signal} {b : Address}
    (hy : y.from? = some b) (hsig : (W a).signals = y :: rest) (hs : (f (W a)).signals = rest)
    (hph : (f (W a)).phase = (W a).phase) (hag : (f (W a)).again = (W a).again)
    (hex : (f (W a)).expects = (W a).expects) (hcol : (f (W a)).collected = (W a).collected)
    (hrd : (f (W a)).ready = (W a).ready)
    (hG : a = Q.sync → Global Q g.course (g.place a) (f (W a)))
    (hmem : ∀ c, c ≠ b → (c ∈ (f (W a)).reported ↔ c ∈ (W a).reported) ∧
      (c ∈ (f (W a)).arrived ↔ c ∈ (W a).arrived))
    (ht : (W a).tallyAgain = true → (f (W a)).tallyAgain = true)
    (hb : a = Q.sync → AtSync Q g.course b (g.place b) (W b) (f (W a))) :
    Inv Q g (W.set a f) := by
  -- reports and arrivals wait only at the synchronizer
  have hsa : a = Q.sync := by
    have := (hI.own a ha).placed y (by rw [hsig]; exact List.mem_cons_self)
    cases y <;> simp_all [Signal.from?, Placed]
  subst hsa
  have hy' : y ≠ .endBarrier ∧ y.isCommand = false ∧ y ≠ .vertices Q.sync ∧ y ≠ .dist := by
    cases y <;> simp_all [Signal.from?, Signal.isCommand]
  have hd : (f (W Q.sync)).signals.count .dist = (W Q.sync).signals.count .dist := by
    rw [hs, hsig, List.count_cons_of_ne hy'.2.2.2]
  -- of an agent, its own part at the synchronizer is as it was
  have hown_at : ∀ c, AtSync Q g.course c (g.place c) (W c) (f (W Q.sync)) →
      AtSync Q g.course c (g.place c) (W.set Q.sync f c) (f (W Q.sync)) := fun c h => by
    rw [View.set_apply]
    split_ifs with hc
    · subst hc
      exact h.congr_own hag hex hd
    · exact h
  refine ⟨?_, fun c hc => ?_, fun c hc => ?_⟩
  · rw [View.set_self]
    exact hG rfl
  · rcases eq_or_ne c Q.sync with rfl | hcs
    · rw [View.set_self]
      exact ((hI.own _ hc).pop hsig hy'.1 hy'.2.1 hy'.2.2.1).congr hs hph hag hcol hrd
    · rw [View.set_ne _ hcs]
      exact hI.own c hc
  · rw [View.set_self]
    refine hown_at c ?_
    rcases eq_or_ne c b with rfl | hcb
    · exact hb rfl
    · refine (hI.atSync c hc).congr_sync ?_ (hmem c hcb).1 (hmem c hcb).2 ht
      rw [hs, hsig, Signal.about_cons_of_ne (by rw [hy]; exact fun h => hcb (Option.some.inj h).symm)]

/-- A report is taken. -/
theorem tally (hI : Inv Q g W) (ha : a ∈ Q.agents) {b : Address} {v : Bool}
    (hsig : (W a).signals = .report b v :: rest) :
    Inv Q (g.after a (some (.report b v)) .quiet)
      ((W.set a fun w => { w with signals := rest }).set a fun w =>
        { w with reported := Address.insertSorted b w.reported,
                 tallyAgain := w.tallyAgain || v }) := by
  have hb : b ∈ Q.agents :=
    ((hI.own a ha).placed (.report b v) (by rw [hsig]; exact List.mem_cons_self)).2
  rw [View.set_set, Ghost.after_quiet (o := some (.report b v)) nofun]
  refine hI.take ha (y := .report b v) rfl hsig rfl rfl rfl rfl rfl rfl (fun hsa => ?_)
    (fun c hc => ⟨?_, Iff.rfl⟩) (fun h => by simp [h]) (fun hsa => ?_)
  · subst hsa
    have hG := hI.global
    refine ⟨hG.kinds_head, hG.kinds_follow, hG.kinds_length, hG.decided, fun c hc => ?_,
      Address.pairwise_insertSorted hG.reported_sorted, hG.arrived, hG.arrived_sorted⟩
    rcases Address.mem_insertSorted.mp hc with rfl | hc
    · exact hb
    · exact hG.reported c hc
  · rw [Address.mem_insertSorted]
    exact or_iff_right hc
  · subst hsa
    exact (hI.atSync b hb).tally hsig rfl rfl rfl rfl

/-- An arrival is taken. -/
theorem gather (hI : Inv Q g W) (ha : a ∈ Q.agents) {b : Address}
    (hsig : (W a).signals = .arrived b :: rest) :
    Inv Q (g.after a (some (.arrived b)) .quiet)
      ((W.set a fun w => { w with signals := rest }).set a fun w =>
        { w with arrived := Address.insertSorted b w.arrived }) := by
  have hb : b ∈ Q.agents :=
    ((hI.own a ha).placed (.arrived b) (by rw [hsig]; exact List.mem_cons_self)).2
  rw [View.set_set, Ghost.after_quiet (o := some (.arrived b)) nofun]
  refine hI.take ha (y := .arrived b) rfl hsig rfl rfl rfl rfl rfl rfl (fun hsa => ?_)
    (fun c hc => ⟨Iff.rfl, ?_⟩) id (fun hsa => ?_)
  · subst hsa
    have hG := hI.global
    refine ⟨hG.kinds_head, hG.kinds_follow, hG.kinds_length, hG.decided, hG.reported,
      hG.reported_sorted, fun c hc => ?_, Address.pairwise_insertSorted hG.arrived_sorted⟩
    rcases Address.mem_insertSorted.mp hc with rfl | hc
    · exact hb
    · exact hG.arrived c hc
  · rw [Address.mem_insertSorted]
    exact or_iff_right hc
  · subst hsa
    exact (hI.atSync b hb).gather hsig rfl rfl rfl rfl

/-! ### The synchronizer's answers -/

/-- The last report is taken, and every agent is told what to expect. -/
theorem deal (hQ : Q.Sound) (hI : Inv Q g W) (ha : a ∈ Q.agents) {b : Address} {v : Bool}
    (hsig : (W a).signals = .report b v :: rest)
    (h : Q.agents.length ≤ (Address.insertSorted b (W a).reported).length) :
    Inv Q (g.after a (some (.report b v)) .deals)
      (((W.set a fun w => { w with signals := rest }).set a fun w =>
        { w with reported := [], arrived := [], tallyAgain := w.tallyAgain || v }).postAll
          Q.agents fun _ => some .dist) := by
  obtain ⟨hsa, hb⟩ : a = Q.sync ∧ b ∈ Q.agents :=
    (hI.own a ha).placed (.report b v) (by rw [hsig]; exact List.mem_cons_self)
  subst hsa
  have hG := hI.global
  -- every agent has reported
  have hall : ∀ c ∈ Q.agents, c = b ∨ c ∈ (W Q.sync).reported := fun c hc => by
    refine Address.mem_insertSorted.mp (mem_of_length_le (fun x hx => ?_)
      (Address.pairwise_insertSorted hG.reported_sorted) h hc)
    rcases Address.mem_insertSorted.mp hx with rfl | hx
    · exact hb
    · exact hG.reported x hx
  have hwait : ∀ c ∈ Q.agents, (g.place c).waits = true ∧ (g.place c).ends = g.course.closed :=
    fun c hc => by
      obtain ⟨-, hw, he, -⟩ := (hI.atSync c hc).reported hsig (hall c hc)
      exact ⟨hw, he⟩
  -- so the kind of the barrier is known
  have hlen : g.course.kinds.length = g.course.closed + 1 := by
    obtain ⟨hw, he⟩ := hwait _ ha
    have hk := (hI.own _ ha).waits_kind hw
    rw [he] at hk
    have := (List.getElem?_eq_some_iff.mp hk).1
    rcases hG.kinds_length with h' | h' <;> omega
  rw [View.set_set, Ghost.after_deals (o := some (.report b v)) nofun]
  refine ⟨?_, fun c hc => ?_, fun c hc => ?_⟩
  · show Global Q { g.course with dealt := true } (g.place Q.sync) _
    rw [View.postAll_of_mem hQ ha, View.set_self]
    exact ⟨hG.kinds_head, hG.kinds_follow, hG.kinds_length, hG.decided, nofun, .nil, nofun, .nil⟩
  · show Own Q { g.course with dealt := true } c (g.place c) _
    rw [View.postAll_of_mem hQ hc]
    have h1 : Own Q g.course c (g.place c) (W.set Q.sync (fun w =>
        { w with signals := rest, reported := [], arrived := [], tallyAgain := w.tallyAgain || v })
        c) := by
      rw [View.set_apply]
      split_ifs with hcs
      · subst hcs
        exact ((hI.own _ hc).pop hsig nofun rfl nofun).congr rfl rfl rfl rfl rfl
      · exact hI.own c hc
    exact (h1.push (x := .dist) trivial nofun rfl nofun).deal (hwait c hc)
  · show AtSync Q { g.course with dealt := true } c (g.place c) _ _
    rw [View.postAll_of_mem hQ hc, View.postAll_of_mem hQ ha, View.set_self]
    refine (hI.atSync c hc).deal hsig (hall c hc) hlen
      (by rw [View.set_apply]; split_ifs with hcs <;> simp_all [Standing.push])
      (by rw [View.set_apply]; split_ifs with hcs <;> simp_all [Standing.push]) ?_
      (by simp [Standing.push])
      rfl rfl rfl
    rw [View.set_apply]
    split_ifs with hcs
    · subst hcs
      simp [Standing.push, hsig]
    · simp [Standing.push]

end Inv

end Lockstep

end ShardStore
